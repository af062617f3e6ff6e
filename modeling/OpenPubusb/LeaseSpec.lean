import OpenPubusb.LeaseIndex
import OpenPubusb.Slot
import OpenPubusb.SubRows

/-! What `lease_next` does to the slots of its subscription on a healthy store:
every message of the scan is touched by at most one effect. -/

namespace OpenPubusb

open Hoare

theorem ensures_onKv {α : Type} {m : KvM α} {s : Engine} {Q : α → Engine → Prop}
    {E : Error → Engine → Prop} :
    Ensures (onKv m) s Q E ↔
      Ensures m s.kv (fun a kv => Q a { s with kv := kv }) (fun e kv => E e { s with kv := kv }) :=
  ensures_focus

/-- The copy of a forwarded message on the dead-letter topic of the policy. -/
structure Copied (policy : ReclaimPolicy) (kv : Kv) (m : MessageRecord) (en : DeadLettered) :
    Prop where
  topic : ∃ name dlq, policy.deadLetter.topic = some name ∧ TopicStore.get kv name = .ok dlq ∧
    en.topicId = dlq.id
  row : ∃ r, kv.msg.get ⟨en.topicId, en.copySeq⟩ = some r ∧ r.payload = m.payload ∧
    r.orderingKey = m.orderingKey
  tail : en.copySeq ≤ TopicStore.currentTail kv en.topicId

theorem Extended.topicGet {kv kv' : Kv} (h : Extended kv kv') (name : String) :
    TopicStore.get kv' name = TopicStore.get kv name := by
  simp only [TopicStore.get, TopicStore.resolveId, TopicStore.loadRecord, h.topics, h.topicNames]

theorem Copied.extended {policy : ReclaimPolicy} {kv kv' : Kv} {m : MessageRecord}
    {en : DeadLettered} (h : Copied policy kv m en) (he : Extended kv kv') :
    Copied policy kv' m en := by
  obtain ⟨⟨name, dlq, hn, hg, ht⟩, ⟨r, hr, hp⟩, hl⟩ := h
  exact ⟨⟨name, dlq, hn, (he.topicGet name).trans hg, ht⟩,
    ⟨r, (he.kept _ _ hl).trans hr, hp⟩, hl.trans (he.tail _)⟩

/-- What the forwarding of one message may do. -/
structure Forwarded (policy : ReclaimPolicy) (subId seq : Nat) (m : MessageRecord)
    (s t : Engine) : Prop where
  extended : Extended s.kv t.kv
  filled : Filled s.kv t.kv
  dlv : t.kv.dlv = s.kv.dlv
  cursors : t.kv.cursors = s.kv.cursors
  leases : t.leases = s.leases
  streams : t.streams = s.streams
  filters : t.filters = s.filters
  log : ∃ en, t.deadLettered = s.deadLettered ++ [en] ∧ en.subId = subId ∧ en.seq = seq ∧
    Copied policy t.kv m en

/-- The dead-letter topic of the policy cannot take the message: its name is not
a topic name, or the copy breaks a limit. -/
def ReclaimPolicy.Refuses (policy : ReclaimPolicy) (kv : Kv) (m : MessageRecord) (n : Nat) :
    Prop :=
  ∃ name, policy.deadLetter.topic = some name ∧
    match TopicStore.get kv name with
    | .error (.notFound _) => False
    | .error _ => True
    | .ok _ => ∃ e, TopicStore.validateBatch [deadLetterCopy m policy n] = .error e

/-- The policy lets a message be delivered as attempt `attempts`: it is not due for
the dead-letter topic, or that topic does not exist. -/
def ReclaimPolicy.Allows (policy : ReclaimPolicy) (kv : Kv) (attempts : Nat) : Prop :=
  ∃ n, attempts = satSuccU32 n ∧ (shouldDeadLetter n policy.deadLetter = true →
    ∃ name e, policy.deadLetter.topic = some name ∧ TopicStore.get kv name = .error (.notFound e))

theorem ReclaimPolicy.allows_first (policy : ReclaimPolicy) (kv : Kv) :
    policy.Allows kv (satSuccU32 0) := by
  refine ⟨0, rfl, fun h => ?_⟩
  simp only [shouldDeadLetter, Bool.and_eq_true, decide_eq_true_eq] at h
  omega

theorem ReclaimPolicy.Allows.extended {policy : ReclaimPolicy} {kv kv' : Kv} {n : Nat}
    (h : policy.Allows kv' n) (he : Extended kv kv') : policy.Allows kv n := by
  obtain ⟨k, hk, h⟩ := h
  refine ⟨k, hk, fun hd => ?_⟩
  obtain ⟨name, e, hn, hg⟩ := h hd
  exact ⟨name, e, hn, (he.topicGet name).symm.trans hg⟩

theorem ensures_forward {policy : ReclaimPolicy} {name : String}
    (hname : policy.deadLetter.topic = some name) {s : Engine} (hh : s.kv.Healthy)
    (subId seq : Nat) (m : MessageRecord) (n : Nat) (nowMs : Int) :
    Ensures (forwardToDeadLetterTopic subId seq name m policy n nowMs) s
      (fun b t => if b then Forwarded policy subId seq m s t else
        t = s ∧ ∃ e, TopicStore.get s.kv name = .error (.notFound e))
      (fun _ t => t = s ∧ policy.Refuses s.kv m n) := by
  simp only [forwardToDeadLetterTopic, ensures_bind, ensures_get]
  cases hg : TopicStore.get s.kv name with
  | error e =>
    cases e with
    | notFound e => exact ⟨rfl, e, rfl⟩
    | _ => exact ⟨rfl, name, hname, by rw [hg]; trivial⟩
  | ok dlq =>
    simp only [ensures_bind, ensures_modify, ensures_pure, ensures_onKv, if_true]
    refine (ensures_append dlq.id [deadLetterCopy m policy n] nowMs (topicRetentionSecs dlq)
      s.kv).mono (fun seqs kv' h => ?_) (fun _ kv' h => ?_)
    · have hseqs : seqs = [TopicStore.currentTail s.kv dlq.id + 1] := h.seqs_eq
      subst hseqs
      have hrow := h.rows (TopicStore.currentTail s.kv dlq.id + 1, deadLetterCopy m policy n)
        (by simp)
      have htail := h.tail
      refine ⟨h.extended, h.filled, h.rows_kept.1, h.rows_kept.2, rfl, rfl, rfl,
        ⟨subId, seq, dlq.id, TopicStore.currentTail s.kv dlq.id + 1⟩, rfl, rfl, rfl, ?_⟩
      refine ⟨⟨name, dlq, hname, (h.extended.topicGet name).trans hg, rfl⟩, ⟨_, hrow, rfl, rfl⟩, ?_⟩
      simp only [List.length_singleton] at htail
      exact le_of_eq htail.symm
    · rcases h.2.2 with ⟨he, hv⟩ | ⟨n, hn⟩
      · exact ⟨by rw [he], name, hname, by rw [hg]; exact hv⟩
      · rw [hh n] at hn
        cases hn

/-- What the scan may do outside of the slots of its subscription. -/
structure Scanned (subId : Nat) (s t : Engine) : Prop where
  extended : Extended s.kv t.kv
  filled : Filled s.kv t.kv
  cursors : t.kv.cursors = s.kv.cursors
  dlv : ∀ i q, i ≠ subId → t.kv.dlv.get ⟨i, q⟩ = s.kv.dlv.get ⟨i, q⟩
  leases : ∀ i q, i ≠ subId → t.leases.get i q = s.leases.get i q
  coherent : s.leases.Coherent → t.leases.Coherent
  streams : t.streams = s.streams
  filters : t.filters = s.filters
  log : ∃ added, t.deadLettered = s.deadLettered ++ added ∧ ∀ en ∈ added, en.subId = subId

theorem Scanned.refl (subId : Nat) (s : Engine) : Scanned subId s s :=
  ⟨Extended.refl, Filled.refl, rfl, fun _ _ _ => rfl, fun _ _ _ => rfl, fun h => h, rfl, rfl, [],
    by simp, by simp⟩

theorem Scanned.trans {subId : Nat} {s t u : Engine} (h : Scanned subId s t)
    (h' : Scanned subId t u) : Scanned subId s u where
  extended := h.extended.trans h'.extended
  filled := h.filled.trans h'.filled h'.extended
  cursors := h'.cursors.trans h.cursors
  dlv i q hi := (h'.dlv i q hi).trans (h.dlv i q hi)
  leases i q hi := (h'.leases i q hi).trans (h.leases i q hi)
  coherent hc := h'.coherent (h.coherent hc)
  streams := h'.streams.trans h.streams
  filters := h'.filters.trans h.filters
  log := by
    obtain ⟨l, hl, hm⟩ := h.log
    obtain ⟨l', hl', hm'⟩ := h'.log
    refine ⟨l ++ l', by rw [hl', hl, List.append_assoc], fun en hen => ?_⟩
    exact (List.mem_append.mp hen).elim (hm en) (hm' en)

theorem Scanned.healthy {subId : Nat} {s t : Engine} (h : Scanned subId s t)
    (hh : s.kv.Healthy) : t.kv.Healthy := fun n => by
  rw [h.extended.ok]
  exact hh n

theorem Scanned.policy {subId : Nat} {s t : Engine} (h : Scanned subId s t) (i : Nat) :
    reclaimPolicy t.kv i = reclaimPolicy s.kv i := by
  simp only [reclaimPolicy, h.extended.subs]

/-- The slot as the scan sees it, with its own copy `c` of the cursor. -/
def Engine.scanSlot (s : Engine) (a : LeaseArgs) (c : CursorRecord) (seq : Nat) : Slot :=
  ⟨(s.leases.get a.subId seq).map Lease.record, s.kv.dlv.get ⟨a.subId, seq⟩,
    !c.isDone seq && s.kv.present a.topicId seq⟩

/-- The log entries of one message. -/
def logOf (l : List DeadLettered) (subId seq : Nat) : List DeadLettered :=
  l.filter (fun en => en.subId = subId ∧ en.seq = seq)

def deliveriesOf (out : List Delivered) (seq : Nat) : List Delivered :=
  out.filter (fun d => d.seq = seq)

/-- What the scan reports about a slot it touched with the given effect. -/
def Outcome (a : LeaseArgs) (policy : ReclaimPolicy) (rows : List (Nat × MessageRecord))
    (seq : Nat) (s t : Engine) (out out' : List Delivered) : Effect → Prop
  | .granted r => r.deadlineMs = a.deadlineMs ∧
      logOf t.deadLettered a.subId seq = logOf s.deadLettered a.subId seq ∧
      policy.Allows s.kv r.attempts ∧
      ∃ m, (seq, m) ∈ rows ∧ accepts a.filter m.attributes = true ∧
        deliveriesOf out' seq = deliveriesOf out seq ++ [deliver a seq m r.attempts]
  | .forwarded saved => saved = true ∧ deliveriesOf out' seq = deliveriesOf out seq ∧
      ∃ m en, (seq, m) ∈ rows ∧
        logOf t.deadLettered a.subId seq = logOf s.deadLettered a.subId seq ++ [en] ∧
        Copied policy t.kv m en
  | .idle => deliveriesOf out' seq = deliveriesOf out seq ∧
      logOf t.deadLettered a.subId seq = logOf s.deadLettered a.subId seq
  | .retired dropped => dropped = false ∧
      (∃ m, (seq, m) ∈ rows ∧ accepts a.filter m.attributes = false) ∧
      deliveriesOf out' seq = deliveriesOf out seq ∧
      logOf t.deadLettered a.subId seq = logOf s.deadLettered a.subId seq
  | _ => False

/-- A message that can still be delivered has a lease or a row. -/
def Slot.Seen (x : Slot) : Prop := x.pending = true → x.lease ≠ none ∨ x.row ≠ none

/-- The scan body visited the row `(seq, m)`. -/
structure Visited (a : LeaseArgs) (policy : ReclaimPolicy) (seq : Nat) (m : MessageRecord)
    (s : Engine) (sc : Scan) (t : Engine) (sc' : Scan) (e : Effect) : Prop where
  scanned : Scanned a.subId s t
  leases : ∀ q ≠ seq, t.leases.get a.subId q = s.leases.get a.subId q
  dlv : ∀ q ≠ seq, t.kv.dlv.get ⟨a.subId, q⟩ = s.kv.dlv.get ⟨a.subId, q⟩
  done : ∀ q ≠ seq, sc'.cursor.isDone q = sc.cursor.isDone q
  out : ∀ q ≠ seq, deliveriesOf sc'.out q = deliveriesOf sc.out q
  log : ∀ q ≠ seq, logOf t.deadLettered a.subId q = logOf s.deadLettered a.subId q
  advanced : sc.cursor.Advanced sc'.cursor
  changed : sc'.cursorChanged = false → sc'.cursor = sc.cursor ∧ sc.cursorChanged = false
  enabled : e.Enabled policy a.nowMs (s.scanSlot a sc.cursor seq)
  slot : t.scanSlot a sc'.cursor seq = e.apply (s.scanSlot a sc.cursor seq)
  outcome : Outcome a policy [(seq, m)] seq s t sc.out sc'.out e
  appended : sc'.out = sc.out ∨ ∃ d, d.seq = seq ∧ sc'.out = sc.out ++ [d]
  seen : (t.scanSlot a sc'.cursor seq).Seen

section Body

variable {a : LeaseArgs} {policy : ReclaimPolicy} {seq : Nat} {m : MessageRecord} {s : Engine}
  {sc : Scan}

theorem markDone_isDone_ne (c : CursorRecord) {seq q : Nat} (h : q ≠ seq) :
    (markDone c seq).isDone q = c.isDone q := by
  rw [Bool.eq_iff_iff, markDone_isDone]
  exact or_iff_left h

theorem markDone_isDone_self (c : CursorRecord) (seq : Nat) :
    (markDone c seq).isDone seq = true :=
  (markDone_isDone c seq seq).mpr (Or.inr rfl)

theorem deliveriesOf_append_ne {out : List Delivered} {d : Delivered} {q : Nat}
    (h : q ≠ d.seq) : deliveriesOf (out ++ [d]) q = deliveriesOf out q := by
  simp [deliveriesOf, Ne.symm h]

theorem logOf_append_ne {l : List DeadLettered} {en : DeadLettered} {i q : Nat}
    (h : q ≠ en.seq) : logOf (l ++ [en]) i q = logOf l i q := by
  simp [logOf, Ne.symm h]

theorem visited_idle (hseen : (s.scanSlot a sc.cursor seq).Seen) :
    Visited a policy seq m s sc s sc .idle where
  scanned := Scanned.refl a.subId s
  leases _ _ := rfl
  dlv _ _ := rfl
  done _ _ := rfl
  out _ _ := rfl
  log _ _ := rfl
  advanced := .refl _
  changed h := ⟨rfl, h⟩
  enabled := trivial
  slot := rfl
  outcome := ⟨rfl, rfl⟩
  appended := Or.inl rfl
  seen := hseen

theorem visited_filtered (hrej : accepts a.filter m.attributes = false) :
    Visited a policy seq m s sc s (sc.markDone seq) (.retired false) where
  scanned := Scanned.refl a.subId s
  leases _ _ := rfl
  dlv _ _ := rfl
  done _ hq := markDone_isDone_ne sc.cursor hq
  out _ _ := rfl
  log _ _ := rfl
  advanced := advanced_markDone _ _
  changed h := by cases h
  enabled := trivial
  slot := by
    simp [Engine.scanSlot, Effect.apply, Scan.markDone, markDone_isDone_self]
  outcome := ⟨rfl, ⟨m, List.mem_cons_self, hrej⟩, rfl, rfl⟩
  appended := Or.inl rfl
  seen hp := by
    simp [Engine.scanSlot, Scan.markDone, markDone_isDone_self] at hp

theorem ensures_grant (hh : s.kv.Healthy) (leases : LeaseTable)
    (hl : ∀ i q, ¬ (i = a.subId ∧ q = seq) → leases.get i q = s.leases.get i q)
    (hc : s.leases.Coherent → leases.Coherent) {n : Nat}
    (hpend : (s.scanSlot a sc.cursor seq).pending = true)
    (hacc : accepts a.filter m.attributes = true)
    (hdue : (s.scanSlot a sc.cursor seq).Due policy a.nowMs n)
    (hall : policy.Allows s.kv (satSuccU32 n)) (E : Error → Engine → Prop) :
    Ensures (grant a sc seq m n) { s with leases := leases }
      (fun sc' t => ∃ e, Visited a policy seq m s sc t sc' e) E := by
  simp only [grant, setLeases, ensures_bind, ensures_get, ensures_modify, ensures_onKv, putDlv,
    ensures_kvWrite_healthy hh, ensures_pure]
  refine ⟨.granted ⟨a.deadlineMs, satSuccU32 n, satSuccU32 n⟩, ?_⟩
  have hne : ∀ {i q}, ¬ (i = a.subId ∧ q = seq) →
      (leases.insert a.subId seq a.deadlineMs (satSuccU32 n) (satSuccU32 n)).get i q =
        s.leases.get i q := fun h => by
    rw [LeaseTable.get_insert, if_neg h, hl _ _ h]
  have hget : (leases.insert a.subId seq a.deadlineMs (satSuccU32 n) (satSuccU32 n)).get
      a.subId seq = some ⟨a.subId, seq, a.deadlineMs, satSuccU32 n, satSuccU32 n⟩ := by
    rw [LeaseTable.get_insert, if_pos ⟨rfl, rfl⟩]
  constructor
  · refine ⟨⟨rfl, rfl, rfl, rfl, rfl, rfl, fun _ => le_rfl, fun _ _ _ => rfl, fun h => h⟩,
      Filled.refl, rfl, fun i q hi => ?_, fun i q hi => hne fun h => hi h.1,
      fun h => (hc h).insert .., rfl, rfl, [], by simp, by simp⟩
    exact SortedMap.get_insert_ne _ _ (by simp [hi])
  · exact fun q hq => hne fun h => hq h.2
  · exact fun q hq => SortedMap.get_insert_ne _ _ (by simp [hq])
  · exact fun q _ => rfl
  · exact fun q hq => deliveriesOf_append_ne hq
  · exact fun q _ => rfl
  · exact .refl _
  · exact fun h => ⟨rfl, h⟩
  · exact ⟨hpend, n, hdue, rfl, rfl⟩
  · simp only [Engine.scanSlot, Effect.apply, hget, Option.map_some, Lease.record, Kv.tick,
      SortedMap.get_insert_self]
    rfl
  · refine ⟨rfl, rfl, hall, m, by simp, hacc, ?_⟩
    simp [deliveriesOf, deliver]
  · exact Or.inr ⟨_, rfl, rfl⟩
  · intro _
    refine Or.inl ?_
    simp only [Engine.scanSlot, hget, Option.map_some]
    exact Option.some_ne_none _

theorem visited_forwarded {t : Engine} (hf : Forwarded policy a.subId seq m s t) {w : Nat}
    (leases : LeaseTable)
    (hl : ∀ i q, leases.get i q = if i = a.subId ∧ q = seq then none else s.leases.get i q)
    (hc : s.leases.Coherent → leases.Coherent)
    (hpend : (s.scanSlot a sc.cursor seq).pending = true) {n : Nat}
    (hdue : (s.scanSlot a sc.cursor seq).Due policy a.nowMs n)
    (hsd : shouldDeadLetter n policy.deadLetter = true) :
    Visited a policy seq m s sc
      { t with leases := leases
               kv := { t.kv with dlv := t.kv.dlv.erase ⟨a.subId, seq⟩, writes := w } }
      (sc.markDone seq) (.forwarded true) := by
  obtain ⟨en, hlog, hes, heq, hcopy⟩ := hf.log
  have hne : ∀ {i q}, ¬ (i = a.subId ∧ q = seq) → leases.get i q = s.leases.get i q :=
    fun h => by rw [hl, if_neg h]
  constructor
  · refine ⟨⟨hf.extended.ok, hf.extended.idSeq, hf.extended.subs, hf.extended.idx,
      hf.extended.topics, hf.extended.topicNames, hf.extended.tail, hf.extended.kept,
      hf.extended.log⟩, hf.filled, hf.cursors, fun i q hi => ?_,
      fun i q hi => hne fun h => hi h.1, hc, hf.streams, hf.filters, [en], hlog, by simpa using hes⟩
    rw [SortedMap.get_erase_ne _ (by simp [hi]), hf.dlv]
  · exact fun q hq => hne fun h => hq h.2
  · exact fun q hq => (SortedMap.get_erase_ne _ (by simp [hq])).trans (by rw [hf.dlv])
  · exact fun q hq => markDone_isDone_ne sc.cursor hq
  · exact fun q _ => rfl
  · intro q hq
    change logOf t.deadLettered a.subId q = _
    rw [hlog, logOf_append_ne (heq ▸ hq)]
  · exact advanced_markDone _ _
  · intro h
    cases h
  · exact ⟨hpend, n, hdue, hsd⟩
  · simp [Engine.scanSlot, Effect.apply, Scan.markDone, markDone_isDone_self, hl]
  · refine ⟨rfl, rfl, m, en, by simp, ?_, hcopy.topic, hcopy.row, hcopy.tail⟩
    change logOf t.deadLettered a.subId seq = _
    rw [hlog]
    simp [logOf, hes, heq]
  · exact Or.inl rfl
  · intro hp
    simp [Engine.scanSlot, Scan.markDone, markDone_isDone_self] at hp

theorem ensures_reclaim (hh : s.kv.Healthy) (hpol : policy = reclaimPolicy s.kv a.subId)
    (hpend : (s.scanSlot a sc.cursor seq).pending = true)
    (hacc : accepts a.filter m.attributes = true) {r : DeliveryRecord} {live : Bool}
    (hdue : policy.Passes a.nowMs r → (s.scanSlot a sc.cursor seq).Due policy a.nowMs r.attempts)
    (hlive : live = false → s.leases.get a.subId seq = none)
    (hseen : (s.scanSlot a sc.cursor seq).Seen) :
    Ensures (reclaim a sc seq m r.deadlineMs r.attempts live) s
      (fun sc' t => ∃ e, Visited a policy seq m s sc t sc' e)
      (fun _ t => t = s) := by
  simp only [reclaim, ensures_bind, ensures_get, ensures_ite, ← hpol]
  refine ⟨fun _ => ⟨.idle, visited_idle hseen⟩, fun hgate => ?_⟩
  have hd := hdue fun he => not_lt.mp fun hlt => hgate ⟨he, hlt⟩
  have hgrant : policy.Allows s.kv (satSuccU32 r.attempts) →
      Ensures (if live then removeLease a.subId seq else pure ()) s
      (fun _ t => Ensures (settle a sc seq m r.attempts false) t
        (fun sc' t => ∃ e, Visited a policy seq m s sc t sc' e)
        (fun _ t => t = s))
      (fun _ t => t = s) := by
    intro hall
    rw [ensures_ite]
    refine ⟨fun _ => ?_, fun _ => ?_⟩
    · refine ensures_grant hh _ (fun i q h => ?_) (fun h => h.remove ..) hpend hacc hd hall _
      rw [LeaseTable.get_remove, if_neg h]
    · exact ensures_grant hh _ (fun _ _ _ => rfl) (fun h => h) hpend hacc hd hall _
  by_cases hsd : shouldDeadLetter r.attempts policy.deadLetter = true
  · obtain ⟨name, hname⟩ : ∃ name, policy.deadLetter.topic = some name := by
      simp only [shouldDeadLetter, Bool.and_eq_true] at hsd
      exact Option.isSome_iff_exists.mp hsd.1.1
    simp only [tryDeadLetter, hsd, if_true, hname, Option.getD_some]
    refine (ensures_forward hname hh a.subId seq m r.attempts a.nowMs).mono
      (fun b t hb => ?_) (fun _ _ h => h.1)
    cases b with
    | false =>
      simp only [Bool.false_eq_true, if_false] at hb
      obtain ⟨hts, e, hnf⟩ := hb
      rw [hts]
      exact ensures_ite.mp (hgrant ⟨r.attempts, rfl, fun _ => ⟨name, e, hname, hnf⟩⟩)
    | true =>
      simp only [if_true] at hb
      have hht : t.kv.Healthy := fun n => by rw [hb.extended.ok]; exact hh n
      simp only [settle, if_true, ensures_bind, ensures_onKv, deleteDlv,
        ensures_kvWrite_healthy hht, ensures_pure, removeLease, ensures_modify]
      refine ⟨fun _ => ⟨.forwarded true, ?_⟩, fun hlf => ⟨.forwarded true, ?_⟩⟩
      · refine visited_forwarded hb _ (fun i q => ?_) (fun h => ?_) hpend hd hsd
        · rw [LeaseTable.get_remove, hb.leases]
        · rw [hb.leases]
          exact h.remove ..
      · refine visited_forwarded hb t.leases (fun i q => ?_) (fun h => ?_) hpend hd hsd
        · rw [hb.leases]
          split_ifs with h
          · rw [h.1, h.2, hlive (by simpa using hlf)]
          · rfl
        · rw [hb.leases]
          exact h
  · simp only [tryDeadLetter, hsd, if_false, Bool.false_eq_true, ensures_pure]
    exact ensures_ite.mp (hgrant ⟨r.attempts, rfl, fun h => absurd h hsd⟩)

theorem ensures_leaseOne (hh : s.kv.Healthy) (hpol : policy = reclaimPolicy s.kv a.subId)
    (hpres : s.kv.present a.topicId seq = true) :
    Ensures (leaseOne a sc seq m) s
      (fun sc' t => ∃ e, Visited a policy seq m s sc t sc' e)
      (fun _ t => t = s) := by
  simp only [leaseOne, ensures_ite, ensures_pure]
  refine ⟨fun hd => ⟨.idle, visited_idle fun hp => ?_⟩,
    fun hnd => ⟨fun hrej => ⟨_, visited_filtered (by simpa using hrej)⟩, fun hacc => ?_⟩⟩
  · simp [Engine.scanSlot, hd] at hp
  have hpend : (s.scanSlot a sc.cursor seq).pending = true := by
    simpa [Engine.scanSlot, hpres] using hnd
  have hacc : accepts a.filter m.attributes = true := by simpa using hacc
  simp only [ensures_bind, ensures_get]
  cases hl : s.leases.get a.subId seq with
  | some lease =>
    have hseen : (s.scanSlot a sc.cursor seq).Seen := fun _ => by simp [Engine.scanSlot, hl]
    simp only [ensures_ite, ensures_pure]
    refine ⟨fun _ => ⟨.idle, visited_idle hseen⟩, fun hexp => ?_⟩
    refine ensures_reclaim hh hpol hpend hacc (r := lease.record) (fun hp => ?_) (fun h => by cases h)
      hseen
    simp only [Slot.Due, Engine.scanSlot, hl, Option.map_some]
    exact ⟨not_lt.mp hexp, hp, trivial⟩
  | none =>
    cases hr : s.kv.dlv.get ⟨a.subId, seq⟩ with
    | some row =>
      have hseen : (s.scanSlot a sc.cursor seq).Seen := fun _ => by simp [Engine.scanSlot, hr]
      refine ensures_reclaim hh hpol hpend hacc (r := row) (fun hp => ?_) (fun _ => hl) hseen
      simp only [Slot.Due, Engine.scanSlot, hl, Option.map_none, hr]
      exact ⟨hp, trivial⟩
    | none =>
      refine ensures_grant hh s.leases (fun _ _ _ => rfl) (fun h => h) hpend hacc ?_
        (policy.allows_first s.kv) _
      simp only [Slot.Due, Engine.scanSlot, hl, Option.map_none, hr]

end Body

section Loop

variable {a : LeaseArgs} {policy : ReclaimPolicy} {s : Engine} {sc : Scan}

theorem Visited.slot_ne {seq : Nat} {m : MessageRecord} {t : Engine} {sc' : Scan} {e : Effect}
    (h : Visited a policy seq m s sc t sc' e) {q : Nat} (hq : q ≠ seq) :
    t.scanSlot a sc'.cursor q = s.scanSlot a sc.cursor q := by
  simp only [Engine.scanSlot, h.leases q hq, h.dlv q hq, h.done q hq,
    h.scanned.extended.present_eq h.scanned.filled]

theorem Outcome.eq_idle {rows : List (Nat × MessageRecord)} {q : Nat} {t : Engine}
    {out out' : List Delivered} {e : Effect} (h : Outcome a policy rows q s t out out' e)
    (hq : q ∉ rows.map Prod.fst) : e = .idle := by
  have hm : ∀ m, (q, m) ∉ rows := fun m hm => hq (List.mem_map.mpr ⟨_, hm, rfl⟩)
  cases e with
  | idle => rfl
  | granted r =>
    obtain ⟨_, _, _, m, hin, _⟩ := h
    exact absurd hin (hm m)
  | forwarded saved =>
    obtain ⟨_, _, m, _, hin, _⟩ := h
    exact absurd hin (hm m)
  | retired dropped =>
    obtain ⟨_, ⟨m, hin, _⟩, _⟩ := h
    exact absurd hin (hm m)
  | _ => exact h.elim

theorem Outcome.cons_ne {rows : List (Nat × MessageRecord)} {row : Nat × MessageRecord} {q : Nat}
    {t u : Engine} {out out₁ out' : List Delivered} {e : Effect}
    (h : Outcome a policy rows q t u out₁ out' e)
    (hout : deliveriesOf out₁ q = deliveriesOf out q)
    (hlog : logOf t.deadLettered a.subId q = logOf s.deadLettered a.subId q)
    (hext : Extended s.kv t.kv) :
    Outcome a policy (row :: rows) q s u out out' e := by
  cases e with
  | idle => exact ⟨h.1.trans hout, h.2.trans hlog⟩
  | granted r =>
    obtain ⟨hd, hl, hall, m, hin, hacc, ho⟩ := h
    exact ⟨hd, hl.trans hlog, hall.extended hext, m, List.mem_cons_of_mem _ hin, hacc,
      by rw [ho, hout]⟩
  | forwarded saved =>
    obtain ⟨hs, ho, m, en, hin, hl, hc⟩ := h
    exact ⟨hs, ho.trans hout, m, en, List.mem_cons_of_mem _ hin, by rw [hl, hlog], hc⟩
  | retired dropped =>
    obtain ⟨hd, ⟨m, hin, hrej⟩, ho, hl⟩ := h
    exact ⟨hd, ⟨m, List.mem_cons_of_mem _ hin, hrej⟩, ho.trans hout, hl.trans hlog⟩
  | _ => exact h.elim

theorem Outcome.cons_self {rows : List (Nat × MessageRecord)} {seq : Nat} {m : MessageRecord}
    {t u : Engine} {out out₁ out' : List Delivered} {e : Effect}
    (h : Outcome a policy [(seq, m)] seq s t out out₁ e)
    (hout : deliveriesOf out' seq = deliveriesOf out₁ seq)
    (hlog : logOf u.deadLettered a.subId seq = logOf t.deadLettered a.subId seq)
    (hext : Extended t.kv u.kv) :
    Outcome a policy ((seq, m) :: rows) seq s u out out' e := by
  cases e with
  | idle => exact ⟨hout.trans h.1, hlog.trans h.2⟩
  | granted r =>
    obtain ⟨hd, hl, hall, m', hin, hacc, ho⟩ := h
    refine ⟨hd, hlog.trans hl, hall, m', ?_, hacc, hout.trans ho⟩
    rw [List.mem_singleton.mp hin]
    exact List.mem_cons_self
  | forwarded saved =>
    obtain ⟨hs, ho, m', en, hin, hl, hc⟩ := h
    refine ⟨hs, hout.trans ho, m', en, ?_, hlog.trans hl, hc.extended hext⟩
    rw [List.mem_singleton.mp hin]
    exact List.mem_cons_self
  | retired dropped =>
    obtain ⟨hd, ⟨m', hin, hrej⟩, ho, hl⟩ := h
    refine ⟨hd, ⟨m', ?_, hrej⟩, hout.trans ho, hlog.trans hl⟩
    rw [List.mem_singleton.mp hin]
    exact List.mem_cons_self
  | _ => exact h.elim

/-- What a finished scan over `rows` did to the slots of its subscription. -/
structure ScanDone (a : LeaseArgs) (policy : ReclaimPolicy) (rows : List (Nat × MessageRecord))
    (s : Engine) (sc : Scan) (t : Engine) (sc' : Scan) : Prop where
  scanned : Scanned a.subId s t
  advanced : sc.cursor.Advanced sc'.cursor
  changed : sc'.cursorChanged = false → sc'.cursor = sc.cursor ∧ sc.cursorChanged = false
  slots : ∀ q, ∃ e : Effect, e.Enabled policy a.nowMs (s.scanSlot a sc.cursor q) ∧
    t.scanSlot a sc'.cursor q = e.apply (s.scanSlot a sc.cursor q) ∧
    Outcome a policy rows q s t sc.out sc'.out e
  order : ∃ ds, sc'.out = sc.out ++ ds ∧ (ds.map Delivered.seq).Sublist (rows.map Prod.fst) ∧
    ∀ d ∈ ds, ∀ q ∈ rows.map Prod.fst, q < d.seq → (t.scanSlot a sc'.cursor q).Seen
  bound : sc.out.length ≤ a.maxMessages → sc'.out.length ≤ a.maxMessages

/-- What a scan did when it failed: its copy of the cursor is lost. -/
structure ScanFailed (a : LeaseArgs) (policy : ReclaimPolicy) (rows : List (Nat × MessageRecord))
    (s : Engine) (sc : Scan) (t : Engine) : Prop where
  scanned : Scanned a.subId s t
  slots : ∀ q, ∃ (e : Effect) (out' : List Delivered),
    e.Enabled policy a.nowMs (s.scanSlot a sc.cursor q) ∧
    (t.leases.get a.subId q).map Lease.record = (e.apply (s.scanSlot a sc.cursor q)).lease ∧
    t.kv.dlv.get ⟨a.subId, q⟩ = (e.apply (s.scanSlot a sc.cursor q)).row ∧
    Outcome a policy rows q s t sc.out out' e

theorem ScanDone.refl (rows : List (Nat × MessageRecord)) :
    ScanDone a policy rows s sc s sc :=
  ⟨Scanned.refl _ _, .refl _, fun h => ⟨rfl, h⟩, fun _ => ⟨.idle, trivial, rfl, rfl, rfl⟩,
    ⟨[], (List.append_nil _).symm, List.nil_sublist _, fun _ h => (by cases h)⟩, fun h => h⟩

theorem ScanFailed.refl (rows : List (Nat × MessageRecord)) : ScanFailed a policy rows s sc s :=
  ⟨Scanned.refl _ _, fun _ => ⟨.idle, sc.out, trivial, rfl, rfl, rfl, rfl⟩⟩

theorem Visited.order {seq : Nat} {m : MessageRecord} {rows : List (Nat × MessageRecord)}
    (hlt : ∀ q ∈ rows.map Prod.fst, seq < q) {t u : Engine} {sc₁ sc' : Scan} {e : Effect}
    (h : Visited a policy seq m s sc t sc₁ e) (h' : ScanDone a policy rows t sc₁ u sc') :
    ∃ ds, sc'.out = sc.out ++ ds ∧
      (ds.map Delivered.seq).Sublist (((seq, m) :: rows).map Prod.fst) ∧
      ∀ d ∈ ds, ∀ q ∈ ((seq, m) :: rows).map Prod.fst, q < d.seq →
        (u.scanSlot a sc'.cursor q).Seen := by
  obtain ⟨ds, hout, hsub, hseen⟩ := h'.order
  have hself : (u.scanSlot a sc'.cursor seq).Seen := by
    obtain ⟨e', _, hsl, ho⟩ := h'.slots seq
    obtain rfl := ho.eq_idle fun hm => lt_irrefl seq (hlt seq hm)
    rw [hsl]
    exact h.seen
  have hrest : ∀ d ∈ ds, ∀ q ∈ ((seq, m) :: rows).map Prod.fst, q < d.seq →
      (u.scanSlot a sc'.cursor q).Seen := by
    intro d hd q hq hqd
    rcases List.mem_cons.mp hq with rfl | hq
    · exact hself
    · exact hseen d hd q hq hqd
  rcases h.appended with hsame | ⟨d₀, hd₀, hone⟩
  · exact ⟨ds, by rw [hout, hsame], hsub.cons _, hrest⟩
  · refine ⟨d₀ :: ds, by rw [hout, hone, List.append_assoc]; rfl, ?_, fun d hd q hq hqd => ?_⟩
    · rw [List.map_cons, List.map_cons, hd₀]
      exact hsub.cons_cons _
    · rcases List.mem_cons.mp hd with rfl | hd
      · rcases List.mem_cons.mp hq with rfl | hq
        · exact hself
        · have := hlt q hq
          omega
      · exact hrest d hd q hq hqd

theorem Visited.scanDone {seq : Nat} {m : MessageRecord} {rows : List (Nat × MessageRecord)}
    (hlt : ∀ q ∈ rows.map Prod.fst, seq < q) {t u : Engine} {sc₁ sc' : Scan} {e : Effect}
    (hmax : sc.out.length < a.maxMessages)
    (h : Visited a policy seq m s sc t sc₁ e) (h' : ScanDone a policy rows t sc₁ u sc') :
    ScanDone a policy ((seq, m) :: rows) s sc u sc' := by
  have hseq : seq ∉ rows.map Prod.fst := fun hm => lt_irrefl seq (hlt seq hm)
  refine ⟨h.scanned.trans h'.scanned, h.advanced.trans h'.advanced, fun hc => ?_, fun q => ?_,
    h.order hlt h', fun _ => h'.bound ?_⟩
  · obtain ⟨hc₁, hf⟩ := h'.changed hc
    rw [hc₁]
    exact h.changed hf
  · obtain ⟨e', hen, hsl, hout⟩ := h'.slots q
    by_cases hq : q = seq
    · subst hq
      obtain rfl := hout.eq_idle hseq
      exact ⟨e, h.enabled, hsl.trans h.slot,
        h.outcome.cons_self hout.1 hout.2 h'.scanned.extended⟩
    · rw [h.slot_ne hq] at hen hsl
      exact ⟨e', hen, hsl, hout.cons_ne (h.out q hq) (h.log q hq) h.scanned.extended⟩
  · rcases h.appended with hsame | ⟨d, _, hone⟩
    · rw [hsame]
      exact hmax.le
    · rw [hone, List.length_append]
      exact hmax

theorem Visited.scanFailed {seq : Nat} {m : MessageRecord} {rows : List (Nat × MessageRecord)}
    (hseq : seq ∉ rows.map Prod.fst) {t u : Engine} {sc₁ : Scan} {e : Effect}
    (h : Visited a policy seq m s sc t sc₁ e) (h' : ScanFailed a policy rows t sc₁ u) :
    ScanFailed a policy ((seq, m) :: rows) s sc u := by
  refine ⟨h.scanned.trans h'.scanned, fun q => ?_⟩
  obtain ⟨e', out', hen, hl, hr, hout⟩ := h'.slots q
  by_cases hq : q = seq
  · subst hq
    obtain rfl := hout.eq_idle hseq
    refine ⟨e, sc₁.out, h.enabled, ?_, ?_, h.outcome.cons_self rfl hout.2 h'.scanned.extended⟩
    · rw [hl, Effect.apply, h.slot]
    · rw [hr, Effect.apply, h.slot]
  · rw [h.slot_ne hq] at hen hl hr
    exact ⟨e', out', hen, hl, hr, hout.cons_ne (h.out q hq) (h.log q hq) h.scanned.extended⟩

theorem ensures_leaseScan (rows : List (Nat × MessageRecord)) (sc : Scan)
    (hsorted : (rows.map Prod.fst).Pairwise (· < ·))
    (hh : s.kv.Healthy) (hpol : policy = reclaimPolicy s.kv a.subId)
    (hpres : ∀ p ∈ rows, s.kv.present a.topicId p.1 = true) :
    Ensures (leaseScan a sc rows) s (fun sc' t => ScanDone a policy rows s sc t sc')
      (fun _ t => ScanFailed a policy rows s sc t) := by
  induction rows generalizing s sc with
  | nil => exact ScanDone.refl []
  | cons row rows ih =>
    obtain ⟨seq, m⟩ := row
    obtain ⟨hlt, hsorted⟩ := List.pairwise_cons.mp hsorted
    have hseq : seq ∉ rows.map Prod.fst := fun hm => lt_irrefl seq (hlt seq hm)
    simp only [leaseScan, ensures_ite, ensures_pure, ensures_bind]
    refine ⟨fun _ => ScanDone.refl _, fun hmax => ?_⟩
    refine (ensures_leaseOne hh hpol (hpres (seq, m) List.mem_cons_self)).mono
      (fun sc₁ t hvisit => ?_) (fun _ t ht => by rw [ht]; exact .refl _)
    obtain ⟨e, hv⟩ := hvisit
    refine (ih sc₁ hsorted (hv.scanned.healthy hh) (hpol.trans (hv.scanned.policy _).symm)
      fun p hp => ?_).mono (fun sc' u h => hv.scanDone hlt (not_le.mp hmax) h)
      (fun _ u h => hv.scanFailed hseq h)
    rw [hv.scanned.extended.present_eq hv.scanned.filled]
    exact hpres p (List.mem_cons_of_mem _ hp)

end Loop

end OpenPubusb
