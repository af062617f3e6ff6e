import OpenPubusb.EngineSpec
import OpenPubusb.System
import OpenPubusb.TwoRuns

/-! Two engines that differ in what belongs to one subscription. Every call on another
one gives the same answer in both, and they differ in nothing else afterwards. -/

namespace OpenPubusb

open Hoare

/-- Two stores that differ in the rows of the subscription `b` at most. -/
structure KvApart (b : Nat) (kv kv' : Kv) : Prop where
  healthy : kv.Healthy
  rest : ∃ subs cursors dlv w, kv' =
    { kv with subs := subs, cursors := cursors, dlv := dlv, writes := w }
  ids : ∀ {i r}, kv.subs.get i = some r → r.id = i
  subs : ∀ i ≠ b, kv'.subs.get i = kv.subs.get i
  cursors : ∀ i ≠ b, kv'.cursors.get i = kv.cursors.get i
  dlv : ∀ i q, i ≠ b → kv'.dlv.get ⟨i, q⟩ = kv.dlv.get ⟨i, q⟩

structure Apart (b : Nat) (s t : Engine) : Prop where
  kv : KvApart b s.kv t.kv
  leases : ∀ i q, i ≠ b → t.leases.get i q = s.leases.get i q
  filters : ∀ i ≠ b, t.filters.get i = s.filters.get i
  streams : t.streams = s.streams

section Store

variable {b : Nat} {kv kv' kv'' : Kv}

theorem KvApart.left (h : KvApart b kv kv') (h' : KvApart b kv kv'')
    (hids : ∀ {i r}, kv'.subs.get i = some r → r.id = i) : KvApart b kv' kv'' where
  healthy := by
    obtain ⟨subs, cursors, dlv, w, rfl⟩ := h.rest
    exact h.healthy
  rest := by
    obtain ⟨subs, cursors, dlv, w, rfl⟩ := h.rest
    exact h'.rest
  ids := hids
  subs i hi := (h'.subs i hi).trans (h.subs i hi).symm
  cursors i hi := (h'.cursors i hi).trans (h.cursors i hi).symm
  dlv i q hi := (h'.dlv i q hi).trans (h.dlv i q hi).symm

theorem Apart.left {s t u : Engine} (h : Apart b s t) (h' : Apart b s u)
    (hids : ∀ {i r}, t.kv.subs.get i = some r → r.id = i) : Apart b t u where
  kv := h.kv.left h'.kv hids
  leases i q hi := (h'.leases i q hi).trans (h.leases i q hi).symm
  filters i hi := (h'.filters i hi).trans (h.filters i hi).symm
  streams := h'.streams.trans h.streams.symm

theorem KvApart.write (h : KvApart b kv kv') {f f' : Kv → Kv}
    (hf : KvApart b (f kv.tick) (f' kv'.tick)) :
    Agrees (KvApart b) (kvWrite f) (kvWrite f') kv kv' := by
  have hh' : kv'.Healthy := by
    obtain ⟨subs, cursors, dlv, w, rfl⟩ := h.rest
    exact h.healthy
  unfold Agrees kvWrite
  rw [h.healthy, hh']
  exact ⟨rfl, hf⟩

theorem agrees_putDlv {i : Nat} (h : KvApart b kv kv') (q : Nat) (r : DeliveryRecord) :
    Agrees (KvApart b) (putDlv i q r) (putDlv i q r) kv kv' := by
  refine h.write ?_
  obtain ⟨subs, cursors, dlv, w, rfl⟩ := h.rest
  refine ⟨h.healthy, ⟨_, _, _, _, rfl⟩, h.ids, h.subs, h.cursors, fun j p hj => ?_⟩
  simp only [SortedMap.get_insert]
  split_ifs
  · rfl
  · exact h.dlv j p hj

theorem agrees_deleteDlv {i : Nat} (h : KvApart b kv kv') (q : Nat) :
    Agrees (KvApart b) (deleteDlv i q) (deleteDlv i q) kv kv' := by
  refine h.write ?_
  obtain ⟨subs, cursors, dlv, w, rfl⟩ := h.rest
  refine ⟨h.healthy, ⟨_, _, _, _, rfl⟩, h.ids, h.subs, h.cursors, fun j p hj => ?_⟩
  simp only [SortedMap.get_erase]
  split_ifs
  · rfl
  · exact h.dlv j p hj

theorem agrees_putCursor {i : Nat} (h : KvApart b kv kv') (c : CursorRecord) :
    Agrees (KvApart b) (putCursor i c) (putCursor i c) kv kv' := by
  refine h.write ?_
  obtain ⟨subs, cursors, dlv, w, rfl⟩ := h.rest
  refine ⟨h.healthy, ⟨_, _, _, _, rfl⟩, h.ids, h.subs, fun j hj => ?_, h.dlv⟩
  simp only [SortedMap.get_insert]
  split_ifs
  · rfl
  · exact h.cursors j hj

theorem agrees_persist (h : KvApart b kv kv') (r : SubscriptionRecord) :
    Agrees (KvApart b) (SubscriptionStore.persist r) (SubscriptionStore.persist r) kv kv' := by
  refine Agrees.bind (h.write ?_) fun _ kv kv' h => h.write ?_
  · obtain ⟨subs, cursors, dlv, w, rfl⟩ := h.rest
    refine ⟨h.healthy, ⟨_, _, _, _, rfl⟩, fun {j x} hx => ?_, fun j hj => ?_, h.cursors, h.dlv⟩
    · rw [SortedMap.get_insert] at hx
      split_ifs at hx with hj
      · cases hx
        exact hj.symm
      · exact h.ids hx
    · simp only [SortedMap.get_insert]
      split_ifs
      · rfl
      · exact h.subs j hj
  · obtain ⟨subs, cursors, dlv, w, rfl⟩ := h.rest
    exact ⟨h.healthy, ⟨_, _, _, _, rfl⟩, h.ids, h.subs, h.cursors, h.dlv⟩

theorem KvApart.load (h : KvApart b kv kv') {i : Nat} (hi : i ≠ b) (what : String) :
    SubscriptionStore.load kv' i what = SubscriptionStore.load kv i what := by
  rw [SubscriptionStore.load, SubscriptionStore.load, h.subs i hi]

theorem KvApart.get (h : KvApart b kv kv') {name : String} (hn : kv.subNames.get name ≠ some b) :
    SubscriptionStore.get kv' name = SubscriptionStore.get kv name := by
  have hnames : kv'.subNames = kv.subNames := by
    obtain ⟨subs, cursors, dlv, w, rfl⟩ := h.rest
    rfl
  unfold SubscriptionStore.get
  rw [hnames]
  cases hg : kv.subNames.get name with
  | none => rfl
  | some i => exact h.load (fun hi => hn (hi ▸ hg)) name

theorem KvApart.id_ne (h : KvApart b kv kv') {name : String} (hn : kv.subNames.get name ≠ some b)
    {r : SubscriptionRecord} (hr : SubscriptionStore.get kv name = .ok r) : r.id ≠ b := by
  obtain ⟨i, hi, hrec⟩ := get_eq_ok hr
  intro hb
  rw [← h.ids hrec, hb] at hi
  exact hn hi

theorem KvApart.policy (h : KvApart b kv kv') {i : Nat} (hi : i ≠ b) :
    reclaimPolicy kv' i = reclaimPolicy kv i := by
  rw [reclaimPolicy, reclaimPolicy, h.subs i hi]

theorem KvApart.topicGet (h : KvApart b kv kv') (name : String) :
    TopicStore.get kv' name = TopicStore.get kv name := by
  obtain ⟨subs, cursors, dlv, w, rfl⟩ := h.rest
  rfl

theorem KvApart.tail (h : KvApart b kv kv') (topicId : Nat) :
    TopicStore.currentTail kv' topicId = TopicStore.currentTail kv topicId := by
  obtain ⟨subs, cursors, dlv, w, rfl⟩ := h.rest
  rfl

theorem KvApart.msg (h : KvApart b kv kv') : kv'.msg = kv.msg := by
  obtain ⟨subs, cursors, dlv, w, rfl⟩ := h.rest
  rfl

theorem agrees_touchRecord (h : KvApart b kv kv') {i : Nat} (hi : i ≠ b) (nowMs : Int) :
    Agrees (KvApart b) (SubscriptionStore.touch i nowMs) (SubscriptionStore.touch i nowMs)
      kv kv' := by
  unfold SubscriptionStore.touch
  apply agrees_estateGet_bind
  rw [h.load hi]
  cases SubscriptionStore.load kv i s!"sub_id={i}" with
  | error e => exact agrees_pure () h
  | ok r => exact agrees_persist h _

theorem agrees_nextSeq (h : KvApart b kv kv') (topicId : Nat) :
    Agrees (KvApart b) (TopicStore.nextSeq topicId) (TopicStore.nextSeq topicId) kv kv' := by
  unfold TopicStore.nextSeq
  apply agrees_estateGet_bind
  rw [h.tail]
  refine Agrees.bind (h.write ?_) fun _ _ _ h => agrees_pure _ h
  obtain ⟨subs, cursors, dlv, w, rfl⟩ := h.rest
  exact ⟨h.healthy, ⟨_, _, _, _, rfl⟩, h.ids, h.subs, h.cursors, h.dlv⟩

theorem agrees_putMsg (h : KvApart b kv kv') (topicId seq : Nat) (m : MessageRecord) :
    Agrees (KvApart b) (putMsg topicId seq m) (putMsg topicId seq m) kv kv' := by
  refine h.write ?_
  obtain ⟨subs, cursors, dlv, w, rfl⟩ := h.rest
  exact ⟨h.healthy, ⟨_, _, _, _, rfl⟩, h.ids, h.subs, h.cursors, h.dlv⟩

theorem agrees_liftResult {σ α : Type} {R : σ → σ → Prop} {s t : σ} (h : R s t) (r : Result α) :
    Agrees R (liftResult r) (liftResult r) s t := by
  cases r with
  | ok a => exact agrees_pure a h
  | error e => exact agrees_throw e h

theorem agrees_appendAll (h : KvApart b kv kv') (topicId : Nat) (nowMs expireAtMs : Int)
    (ms : List PublishMessage) :
    Agrees (KvApart b) (TopicStore.appendAll topicId nowMs expireAtMs ms)
      (TopicStore.appendAll topicId nowMs expireAtMs ms) kv kv' := by
  induction ms generalizing kv kv' with
  | nil => exact agrees_pure _ h
  | cons m ms ih =>
    refine Agrees.bind (agrees_nextSeq h topicId) fun seq _ _ h => ?_
    refine Agrees.bind (agrees_putMsg h topicId seq _) fun _ _ _ h => ?_
    exact Agrees.bind (ih h) fun _ _ _ h => agrees_pure _ h

theorem agrees_append (h : KvApart b kv kv') (topicId : Nat) (ms : List PublishMessage)
    (nowMs retentionSecs : Int) :
    Agrees (KvApart b) (TopicStore.append topicId ms nowMs retentionSecs)
      (TopicStore.append topicId ms nowMs retentionSecs) kv kv' :=
  Agrees.bind (agrees_liftResult h _) fun _ _ _ h => agrees_appendAll h ..

theorem agrees_deleteDlvAll (h : KvApart b kv kv') {i : Nat} (seqs : List Nat) :
    Agrees (KvApart b) (deleteDlvAll i seqs) (deleteDlvAll i seqs) kv kv' := by
  induction seqs generalizing kv kv' with
  | nil => exact agrees_pure _ h
  | cons q qs ih => exact Agrees.bind (agrees_deleteDlv h q) fun _ _ _ h => ih h

end Store

section Visible

variable {b : Nat} {s t : Engine}

theorem agrees_onKv {α : Type} (h : Apart b s t) {m m' : KvM α}
    (hm : Agrees (KvApart b) m m' s.kv t.kv) : Agrees (Apart b) (onKv m) (onKv m') s t :=
  agrees_focus hm fun _ _ hkv => ⟨hkv, h.leases, h.filters, h.streams⟩

/-- The same change of the lease table, seen from all subscriptions but `b`. -/
theorem agrees_setLeases (h : Apart b s t) {l l' : LeaseTable}
    (hl : ∀ i q, i ≠ b → l'.get i q = l.get i q) :
    Agrees (Apart b) (setLeases l) (setLeases l') s t :=
  agrees_modify ⟨h.kv, hl, h.filters, h.streams⟩

theorem agrees_removeLease (h : Apart b s t) (i q : Nat) :
    Agrees (Apart b) (removeLease i q) (removeLease i q) s t := by
  refine agrees_modify ⟨h.kv, fun j p hj => ?_, h.filters, h.streams⟩
  simp only [LeaseTable.get_remove, h.leases j p hj]

theorem agrees_grant {a : LeaseArgs} (h : Apart b s t) (sc : Scan) (seq : Nat)
    (m : MessageRecord) (n : Nat) :
    Agrees (Apart b) (grant a sc seq m n) (grant a sc seq m n) s t := by
  unfold grant
  apply agrees_get_bind
  refine Agrees.bind (agrees_setLeases h fun j p hj => ?_) fun _ _ _ h => ?_
  · simp only [LeaseTable.get_insert, h.leases j p hj]
  · exact Agrees.bind (agrees_onKv h (agrees_putDlv h.kv seq _)) fun _ _ _ h => agrees_pure _ h

theorem agrees_forward (h : Apart b s t) (subId seq : Nat) (name : String) (m : MessageRecord)
    (policy : ReclaimPolicy) (n : Nat) (nowMs : Int) :
    Agrees (Apart b) (forwardToDeadLetterTopic subId seq name m policy n nowMs)
      (forwardToDeadLetterTopic subId seq name m policy n nowMs) s t := by
  unfold forwardToDeadLetterTopic
  apply agrees_get_bind
  rw [h.kv.topicGet]
  cases TopicStore.get s.kv name with
  | error e =>
    cases e with
    | notFound x => exact agrees_pure _ h
    | _ => exact agrees_throw _ h
  | ok dlq =>
    refine Agrees.bind (agrees_onKv h (agrees_append h.kv ..)) fun seqs _ _ h => ?_
    refine Agrees.bind (agrees_modify ?_) fun _ _ _ h => agrees_pure _ h
    exact ⟨h.kv, h.leases, h.filters, h.streams⟩

theorem agrees_settle {a : LeaseArgs} (h : Apart b s t) (sc : Scan) (seq : Nat)
    (m : MessageRecord) (n : Nat) (forwarded : Bool) :
    Agrees (Apart b) (settle a sc seq m n forwarded) (settle a sc seq m n forwarded) s t := by
  cases forwarded with
  | true =>
    exact Agrees.bind (agrees_onKv h (agrees_deleteDlv h.kv seq)) fun _ _ _ h => agrees_pure _ h
  | false => exact agrees_grant h sc seq m n

theorem agrees_reclaim {a : LeaseArgs} (ha : a.subId ≠ b) (h : Apart b s t) (sc : Scan)
    (seq : Nat) (m : MessageRecord) (deadlineMs : Int) (n : Nat) (live : Bool) :
    Agrees (Apart b) (reclaim a sc seq m deadlineMs n live) (reclaim a sc seq m deadlineMs n live)
      s t := by
  unfold reclaim
  apply agrees_get_bind
  rw [h.kv.policy ha]
  refine agrees_ite Iff.rfl (fun _ => agrees_pure _ h) fun _ => ?_
  refine Agrees.bind ?_ fun forwarded _ _ h => Agrees.bind ?_ fun _ _ _ h =>
    agrees_settle h sc seq m n forwarded
  · exact agrees_ite Iff.rfl (fun _ => agrees_forward h ..) fun _ => agrees_pure _ h
  · exact agrees_ite Iff.rfl (fun _ => agrees_removeLease h ..) fun _ => agrees_pure _ h

theorem agrees_leaseOne {a : LeaseArgs} (ha : a.subId ≠ b) (h : Apart b s t) (sc : Scan)
    (seq : Nat) (m : MessageRecord) :
    Agrees (Apart b) (leaseOne a sc seq m) (leaseOne a sc seq m) s t := by
  unfold leaseOne
  refine agrees_ite Iff.rfl (fun _ => agrees_pure _ h) fun _ => ?_
  refine agrees_ite Iff.rfl (fun _ => agrees_pure _ h) fun _ => ?_
  apply agrees_get_bind
  rw [h.leases _ _ ha, h.kv.dlv _ _ ha]
  cases s.leases.get a.subId seq with
  | some lease =>
    exact agrees_ite Iff.rfl (fun _ => agrees_pure _ h) fun _ => agrees_reclaim ha h ..
  | none =>
    cases s.kv.dlv.get ⟨a.subId, seq⟩ with
    | some row => exact agrees_reclaim ha h ..
    | none => exact agrees_grant h sc seq m 0

theorem agrees_leaseScan {a : LeaseArgs} (ha : a.subId ≠ b) (h : Apart b s t) (sc : Scan)
    (rows : List (Nat × MessageRecord)) :
    Agrees (Apart b) (leaseScan a sc rows) (leaseScan a sc rows) s t := by
  induction rows generalizing sc s t with
  | nil => exact agrees_pure sc h
  | cons row rows ih =>
    refine agrees_ite Iff.rfl (fun _ => agrees_pure sc h) fun _ => ?_
    exact Agrees.bind (agrees_leaseOne ha h sc row.1 row.2) fun sc _ _ h => ih h sc

theorem agrees_saveChanged (h : Apart b s t) (i : Nat) (c : CursorRecord × Bool) :
    Agrees (Apart b) (saveChanged i c) (saveChanged i c) s t :=
  agrees_ite Iff.rfl (fun _ => agrees_onKv h (agrees_putCursor h.kv c.1)) fun _ => agrees_pure _ h

theorem agrees_loadCursor (h : Apart b s t) {i : Nat} (hi : i ≠ b) :
    Agrees (Apart b) (loadCursor i) (loadCursor i) s t := by
  unfold loadCursor
  apply agrees_get_bind
  rw [h.kv.cursors i hi]
  cases s.kv.cursors.get i with
  | none => exact agrees_throw _ h
  | some c => exact agrees_pure c h

theorem agrees_compiledFilter (h : Apart b s t) {i : Nat} (hi : i ≠ b) :
    Agrees (Apart b) (compiledFilter i) (compiledFilter i) s t := by
  unfold compiledFilter
  apply agrees_get_bind
  have hstored : storedFilter t.kv i = storedFilter s.kv i := by
    rw [storedFilter, storedFilter, h.kv.subs i hi]
  rw [h.filters i hi, hstored]
  cases s.filters.get i with
  | some f => exact agrees_pure f h
  | none =>
    refine Agrees.bind (agrees_modify ?_) fun _ _ _ h => agrees_pure _ h
    refine ⟨h.kv, h.leases, fun j hj => ?_, h.streams⟩
    simp only [SortedMap.get_insert, h.filters j hj]

theorem agrees_leaseNext (h : Apart b s t) {i : Nat} (hi : i ≠ b) (topicId : Nat)
    (maxMessages nowMs secs : Int) :
    Agrees (Apart b) (leaseNext i topicId maxMessages nowMs secs)
      (leaseNext i topicId maxMessages nowMs secs) s t := by
  refine agrees_ite Iff.rfl (fun _ => agrees_pure _ h) fun _ => ?_
  refine Agrees.bind (agrees_loadCursor h hi) fun c _ _ h => ?_
  refine Agrees.bind (agrees_compiledFilter h hi) fun f s t h => ?_
  unfold leaseNextLocked
  apply agrees_get_bind
  rw [h.kv.msg]
  refine Agrees.bind (agrees_leaseScan hi h ..) fun sc _ _ h => ?_
  exact Agrees.bind (agrees_saveChanged h ..) fun _ _ _ h => agrees_pure _ h

theorem resolveAck_apart {l l' : LeaseTable} (hl : ∀ i q, i ≠ b → l'.get i q = l.get i q)
    {ackId : String} (hid : ∀ j q g, decodeAckId ackId = some (j, q, g) → j ≠ b)
    {apply apply' : Nat → Nat → Lease → LeaseTable × AckOutcome}
    (happly : ∀ j q lease, j ≠ b → (apply' j q lease).2 = (apply j q lease).2 ∧
      ∀ i p, i ≠ b → (apply' j q lease).1.get i p = (apply j q lease).1.get i p) :
    (l'.resolveAck ackId apply').2 = (l.resolveAck ackId apply).2 ∧
      ∀ i q, i ≠ b → (l'.resolveAck ackId apply').1.get i q =
        (l.resolveAck ackId apply).1.get i q := by
  unfold LeaseTable.resolveAck
  cases hd : decodeAckId ackId with
  | none => exact ⟨rfl, hl⟩
  | some k =>
    obtain ⟨j, q, g⟩ := k
    have hj := hid j q g hd
    simp only [hl j q hj]
    cases l.get j q with
    | none => exact ⟨rfl, hl⟩
    | some lease =>
      by_cases hg : lease.generation = g
      · simp only [hg, ne_eq, not_true_eq_false, if_false]
        exact happly j q lease hj
      · simp only [hg, ne_eq, not_false_eq_true, if_true]
        exact ⟨trivial, hl⟩

def Avoids (b : Nat) (ackIds : List String) : Prop :=
  ∀ ackId ∈ ackIds, ∀ j q g, decodeAckId ackId = some (j, q, g) → j ≠ b

theorem agrees_ackAll (h : Apart b s t) {ackIds : List String} (hids : Avoids b ackIds) (i : Nat)
    (c : CursorRecord × Bool) :
    Agrees (Apart b) (ackAll i c ackIds) (ackAll i c ackIds) s t := by
  induction ackIds generalizing c s t with
  | nil => exact agrees_pure c h
  | cons ackId ackIds ih =>
    have hrest : Avoids b ackIds := fun x hx => hids x (List.mem_cons_of_mem _ hx)
    have hack : (t.leases.ack ackId).2 = (s.leases.ack ackId).2 ∧
        ∀ i q, i ≠ b → (t.leases.ack ackId).1.get i q = (s.leases.ack ackId).1.get i q := by
      refine resolveAck_apart h.leases (hids ackId List.mem_cons_self)
        fun j q lease _ => ⟨rfl, fun i p hi => ?_⟩
      simp only [LeaseTable.get_remove, h.leases i p hi]
    unfold ackAll
    apply agrees_get_bind
    refine Agrees.bind (agrees_setLeases h hack.2) fun _ _ _ h => ?_
    rw [hack.1]
    cases (s.leases.ack ackId).2 with
    | applied lease =>
      exact Agrees.bind (agrees_onKv h (agrees_deleteDlv h.kv _)) fun _ _ _ h => ih h hrest _
    | _ => exact ih h hrest c

theorem agrees_acknowledge (h : Apart b s t) {i : Nat} (hi : i ≠ b) {ackIds : List String}
    (hids : Avoids b ackIds) :
    Agrees (Apart b) (acknowledge i ackIds) (acknowledge i ackIds) s t := by
  refine agrees_ite Iff.rfl (fun _ => agrees_pure _ h) fun _ => ?_
  refine Agrees.bind (agrees_loadCursor h hi) fun c _ _ h => ?_
  exact Agrees.bind (agrees_ackAll h hids i (c, false)) fun c _ _ h => agrees_saveChanged h i c

theorem agrees_modifyAckDeadline (h : Apart b s t) {ackIds : List String} (hids : Avoids b ackIds)
    (i : Nat) (nowMs seconds : Int) :
    Agrees (Apart b) (modifyAckDeadline i ackIds nowMs seconds)
      (modifyAckDeadline i ackIds nowMs seconds) s t := by
  induction ackIds generalizing s t with
  | nil => exact agrees_pure _ h
  | cons ackId ackIds ih =>
    have hrest : Avoids b ackIds := fun x hx => hids x (List.mem_cons_of_mem _ hx)
    have hext : (t.leases.extend ackId nowMs seconds).2 = (s.leases.extend ackId nowMs seconds).2 ∧
        ∀ i q, i ≠ b → (t.leases.extend ackId nowMs seconds).1.get i q =
          (s.leases.extend ackId nowMs seconds).1.get i q := by
      refine resolveAck_apart h.leases (hids ackId List.mem_cons_self)
        fun j q lease _ => ⟨rfl, fun i p hi => ?_⟩
      simp only [LeaseTable.get_reschedule, h.leases i p hi]
    unfold modifyAckDeadline
    apply agrees_get_bind
    refine Agrees.bind (agrees_setLeases h hext.2) fun _ _ _ h => ?_
    rw [hext.1]
    cases (s.leases.extend ackId nowMs seconds).2 with
    | applied lease =>
      exact Agrees.bind (agrees_onKv h (agrees_putDlv h.kv _ _)) fun _ _ _ h => ih h hrest
    | _ => exact ih h hrest

theorem scanPrefix_congr {ν : Type} {m m' : SortedMap RowKey ν} {i : Nat}
    (h : ∀ q, m.get ⟨i, q⟩ = m'.get ⟨i, q⟩) : scanPrefix m i = scanPrefix m' i := by
  have hnodup : ∀ x : SortedMap RowKey ν, (scanPrefix x i).Nodup := fun x =>
    (scanPrefix_sorted x i).imp fun hlt he => ne_of_lt hlt (congrArg Prod.fst he)
  have hperm : (scanPrefix m i).Perm (scanPrefix m' i) := by
    refine (List.perm_ext_iff_of_nodup (hnodup m) (hnodup m')).mpr fun e => ?_
    rw [mem_scanPrefix, mem_scanPrefix, h]
  exact hperm.eq_of_pairwise (fun _ _ _ _ hlt hlt' => absurd (hlt.trans hlt') (lt_irrefl _))
    (scanPrefix_sorted m i) (scanPrefix_sorted m' i)

theorem seqsOf_eq (l : LeaseTable) (i : Nat) :
    l.seqsOf i = (scanPrefix l.byKey i).map Prod.fst := by
  simp only [LeaseTable.seqsOf, SortedMap.keys, scanPrefix, List.filter_map, List.map_map]
  rfl

theorem agrees_restoreCursor (h : Apart b s t) {i : Nat} (hi : i ≠ b) (c : CursorRecord) :
    Agrees (Apart b) (restoreCursor i c) (restoreCursor i c) s t := by
  have hseqs : t.leases.seqsOf i = s.leases.seqsOf i := by
    rw [seqsOf_eq, seqsOf_eq, scanPrefix_congr fun q => h.leases i q hi]
  unfold restoreCursor
  apply agrees_get_bind
  refine Agrees.bind (agrees_setLeases h fun j q hj => ?_) fun _ _ _ h => ?_
  · rw [LeaseTable.get_removeAllForSubscription, LeaseTable.get_removeAllForSubscription,
      h.leases j q hj]
  · rw [show (t.leases.removeAllForSubscription i).2 = (s.leases.removeAllForSubscription i).2
      from hseqs]
    refine Agrees.bind (agrees_onKv h (agrees_deleteDlvAll h.kv _)) fun _ s t h => ?_
    apply agrees_get_bind
    rw [scanPrefix_congr fun q => h.kv.dlv i q hi]
    refine Agrees.bind (agrees_onKv h (agrees_deleteDlvAll h.kv _)) fun _ _ _ h => ?_
    exact agrees_onKv h (agrees_putCursor h.kv c)

theorem agrees_touch (h : Apart b s t) {i : Nat} (hi : i ≠ b) (nowMs : Int) :
    Agrees (Apart b) (PubSubService.touch i nowMs) (PubSubService.touch i nowMs) s t :=
  (agrees_onKv h (agrees_touchRecord h.kv hi nowMs)).ignore

end Visible

section Calls

variable {b : Nat} {s t : Engine}

/-- The subscription that a call of its clients names. -/
def Op.reader : Op → Option String
  | .pull name _ => some name
  | .acknowledge name _ => some name
  | .modifyAckDeadline name _ _ => some name
  | .seekToSnapshot name _ => some name
  | .seekToTime name _ => some name
  | _ => none

def Op.isPublish : Op → Bool
  | .publish .. => true
  | _ => false

def Op.ackIds : Op → List String
  | .acknowledge _ ackIds => ackIds
  | .modifyAckDeadline _ ackIds _ => ackIds
  | _ => []

theorem KvApart.boundary {kv kv' : Kv} (h : KvApart b kv kv') (topicId : Nat) (timeMs : Int) :
    TopicStore.seqBoundaryForTime kv' topicId timeMs =
      TopicStore.seqBoundaryForTime kv topicId timeMs := by
  have hpublished : ∀ q, TopicStore.publishTsMs kv' topicId q = TopicStore.publishTsMs kv topicId q := by
    intro q
    rw [TopicStore.publishTsMs, TopicStore.publishTsMs, h.msg]
  have hsearch : ∀ fuel lo hi, TopicStore.boundarySearch kv' topicId timeMs fuel lo hi =
      TopicStore.boundarySearch kv topicId timeMs fuel lo hi := by
    intro fuel
    induction fuel with
    | zero => exact fun _ _ => rfl
    | succ fuel ih =>
      intro lo hi
      simp only [TopicStore.boundarySearch, hpublished, ih]
  simp only [TopicStore.seqBoundaryForTime, h.tail, hsearch]

theorem KvApart.snapshot {kv kv' : Kv} (h : KvApart b kv kv') (name : String) :
    SnapshotStore.get kv' name = SnapshotStore.get kv name := by
  obtain ⟨subs, cursors, dlv, w, rfl⟩ := h.rest
  rfl

theorem agrees_get_record {α : Type} (h : Apart b s t) {name : String}
    (hn : s.kv.subNames.get name ≠ some b) {f f' : SubscriptionRecord → EngineM α}
    (hf : ∀ r, r.id ≠ b → Agrees (Apart b) (f r) (f' r) s t) :
    Agrees (Apart b) (liftResult (SubscriptionStore.get s.kv name) >>= f)
      (liftResult (SubscriptionStore.get t.kv name) >>= f') s t := by
  rw [h.kv.get hn]
  cases hr : SubscriptionStore.get s.kv name with
  | error e => exact agrees_throw e h
  | ok r => exact hf r (h.kv.id_ne hn hr)

theorem agrees_pull (h : Apart b s t) {name : String} (hn : s.kv.subNames.get name ≠ some b)
    (maxMessages nowMs : Int) :
    Agrees (Apart b) (PubSubService.pullDelivered name maxMessages nowMs)
      (PubSubService.pullDelivered name maxMessages nowMs) s t := by
  unfold PubSubService.pullDelivered
  cases validatePullMaxMessages (max maxMessages 1) with
  | error e => exact agrees_throw e h
  | ok u =>
    show Agrees (Apart b) (PubSubService.attached name >>= _) (PubSubService.attached name >>= _) s t
    simp only [PubSubService.attached, bind_assoc]
    apply agrees_get_bind
    refine agrees_get_record h hn fun r hr => ?_
    by_cases hd : r.detached = true ∨ r.topic = deletedTopic
    · simp only [if_pos hd]
      exact agrees_throw _ h
    · simp only [if_neg hd, pure_bind]
      refine Agrees.bind (agrees_leaseNext h hr ..) fun ds _ _ h => ?_
      exact Agrees.bind (agrees_touch h hr nowMs) fun _ _ _ h => agrees_pure _ h

theorem agrees_publish (h : Apart b s t) (topic : String) (ms : List PublishMessage)
    (nowMs : Int) :
    Agrees (Apart b) (PubSubService.publish topic ms nowMs) (PubSubService.publish topic ms nowMs)
      s t := by
  refine agrees_onKv h ?_
  apply agrees_get_bind
  rw [h.kv.topicGet]
  refine Agrees.bind (agrees_liftResult h.kv _) fun record _ _ h => ?_
  exact Agrees.bind (agrees_append h ..) fun _ _ _ h => agrees_pure _ h

theorem agrees_perform (h : Apart b s t) (nowMs : Int) {op : Op}
    (hop : op.isPublish = true ∨ op.reader.isSome = true)
    (hn : ∀ name, op.reader = some name → s.kv.subNames.get name ≠ some b)
    (hids : Avoids b op.ackIds) :
    Agrees (Apart b) (perform nowMs op) (perform nowMs op) s t := by
  cases op with
  | publish topic ms =>
    exact Agrees.bind (agrees_publish h topic ms nowMs) fun _ _ _ h => agrees_pure _ h
  | pull name maxMessages =>
    exact Agrees.bind (agrees_pull h (hn name rfl) ..) fun _ _ _ h => agrees_pure _ h
  | acknowledge name ackIds =>
    refine Agrees.bind ?_ fun _ _ _ h => agrees_pure _ h
    unfold PubSubService.acknowledge
    apply agrees_get_bind
    refine agrees_get_record h (hn name rfl) fun r hr => ?_
    exact Agrees.bind (agrees_acknowledge h hr hids) fun _ _ _ h => agrees_touch h hr nowMs
  | modifyAckDeadline name ackIds seconds =>
    refine Agrees.bind ?_ fun _ _ _ h => agrees_pure _ h
    unfold PubSubService.modifyAckDeadline
    apply agrees_get_bind
    refine agrees_get_record h (hn name rfl) fun r hr => ?_
    exact Agrees.bind (agrees_modifyAckDeadline h hids ..) fun _ _ _ h => agrees_touch h hr nowMs
  | seekToSnapshot name snapshot =>
    refine Agrees.bind ?_ fun _ _ _ h => agrees_pure _ h
    unfold PubSubService.seekToSnapshot
    apply agrees_get_bind
    refine agrees_get_record h (hn name rfl) fun r hr => ?_
    rw [h.kv.snapshot]
    refine Agrees.bind (agrees_liftResult h _) fun x _ _ h => ?_
    exact agrees_ite Iff.rfl (fun _ => agrees_throw _ h) fun _ => agrees_restoreCursor h hr _
  | seekToTime name timeMs =>
    refine Agrees.bind ?_ fun _ _ _ h => agrees_pure _ h
    unfold PubSubService.seekToTime
    apply agrees_get_bind
    refine agrees_get_record h (hn name rfl) fun r hr => ?_
    rw [h.kv.boundary]
    refine Agrees.bind (agrees_loadCursor h hr) fun c _ _ h => ?_
    exact agrees_restoreCursor h hr _
  | _ => simp [Op.isPublish, Op.reader] at hop

end Calls

end OpenPubusb
