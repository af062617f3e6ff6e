import OpenPubusb.AckIds
import OpenPubusb.FilterCache
import OpenPubusb.IdleExpiry
import OpenPubusb.PushRetry

/-! Liveness: a consumer that pulls and acknowledges in rounds is handed the whole backlog,
in the order of the log and every message once. -/

namespace OpenPubusb

open Hoare

/-- A consumer: it pulls, acknowledges what it was handed, and starts over. -/
def consume (name : String) (maxMessages nowMs : Int) : Nat → EngineM (List Delivered)
  | 0 => pure []
  | rounds + 1 => do
    let r ← PubSubService.pullDelivered name maxMessages nowMs
    PubSubService.acknowledge name (r.2.map Delivered.ackId) nowMs
    let ds ← consume name maxMessages nowMs rounds
    pure (r.2 ++ ds)

/-- The messages of the log that are not done and pass the filter. -/
def waiting (s : Engine) (sub : SubscriptionRecord) : List (Nat × MessageRecord) :=
  (scanPrefix s.kv.msg sub.topicId).filter fun row =>
    (s.kv.cursors.get sub.id).any (fun c => !c.isDone row.1) &&
      accepts (s.filterOf sub.id) row.2.attributes

/-- Neither a lease nor the retry policy of the subscription holds a message back. -/
def NothingHeld (s : Engine) (subId : Nat) (nowMs : Int) : Prop :=
  ∀ q, s.heldAt nowMs subId q = false ∧
    (reclaimPolicy s.kv subId).backsOff nowMs (s.lastDelivery subId q) = false

/-- What the consumer starts a round from: an attached subscription without a dead-letter
topic, with nothing held back, whose ids fit the codec of ack ids. -/
structure Drainable (s : Engine) (name : String) (r : SubscriptionRecord) (nowMs : Int) :
    Prop where
  wf : s.WellFormed
  consistent : Consistent s.kv
  get : SubscriptionStore.get s.kv name = .ok r
  attached : r.detached = false ∧ r.topic ≠ deletedTopic
  noDeadLetter : r.deadLetterTopic = none
  lapsed : NothingHeld s r.id nowMs
  id_lt : r.id < 2 ^ 64
  seq_lt : ∀ row ∈ scanPrefix s.kv.msg r.topicId, row.1 < 2 ^ 64

section Lists

variable {α : Type} {l : List (Nat × α)}

theorem filter_not_taken (h : (l.map Prod.fst).Nodup) (n : Nat) :
    (l.filter fun row => row.1 ∉ (l.take n).map Prod.fst) = l.drop n := by
  have hsplit : (l.map Prod.fst) = (l.take n).map Prod.fst ++ (l.drop n).map Prod.fst := by
    rw [← List.map_append, List.take_append_drop]
  rw [hsplit, List.nodup_append] at h
  have htaken : ((l.take n).filter fun row => row.1 ∉ (l.take n).map Prod.fst) = [] := by
    refine List.filter_eq_nil_iff.mpr fun row hrow => ?_
    rw [decide_eq_true_iff, not_not]
    exact List.mem_map_of_mem hrow
  have hdropped : ((l.drop n).filter fun row => row.1 ∉ (l.take n).map Prod.fst) = l.drop n := by
    refine List.filter_eq_self.mpr fun row hrow => ?_
    rw [decide_eq_true_iff]
    exact fun hmem => h.2.2 _ hmem _ (List.mem_map_of_mem hrow) rfl
  calc (l.filter fun row => row.1 ∉ (l.take n).map Prod.fst)
      = ((l.take n ++ l.drop n).filter fun row => row.1 ∉ (l.take n).map Prod.fst) := by
        rw [List.take_append_drop]
    _ = l.drop n := by rw [List.filter_append, htaken, hdropped, List.nil_append]

end Lists

section Rounds

variable {s t u : Engine} {name : String} {r : SubscriptionRecord} {nowMs maxMessages : Int}

theorem Consistent.record_of_get {kv : Kv} (hc : Consistent kv)
    (h : SubscriptionStore.get kv name = .ok r) : kv.subs.get r.id = some r ∧ r.name = name := by
  obtain ⟨id, hn, hr⟩ := get_eq_ok h
  obtain ⟨r', hr', hname⟩ := hc.subs.named hn
  rw [hr, Option.some.injEq] at hr'
  obtain rfl : r.id = id := (hc.subs.record hr).2
  exact ⟨hr, hr' ▸ hname⟩

theorem get_of_touched {kv kv' : Kv} (hc : Consistent kv) (hc' : Consistent kv')
    (h : SubscriptionStore.get kv name = .ok r) (ht : TouchedAt r.id nowMs kv kv') :
    SubscriptionStore.get kv' name = .ok { r with lastActivityTsMs := nowMs } := by
  obtain ⟨hr, hname⟩ := hc.record_of_get h
  have hr' := ht r.id
  rw [if_pos rfl, hr, Option.map_some] at hr'
  have hget := hc'.get_name hr'
  rw [← hname]
  exact hget

theorem Drainable.record (h : Drainable s name r nowMs) : s.kv.subs.get r.id = some r :=
  (h.consistent.record_of_get h.get).1

theorem Drainable.cursor (h : Drainable s name r nowMs) :
    ∃ c, s.kv.cursors.get r.id = some c := by
  refine Option.isSome_iff_exists.mp ((h.consistent.cursors r.id).mpr ?_)
  rw [h.record]
  rfl

theorem Drainable.never_dead (h : Drainable s name r nowMs) (n : Nat) :
    shouldDeadLetter n (reclaimPolicy s.kv r.id).deadLetter = false := by
  simp [reclaimPolicy, h.record, shouldDeadLetter, h.noDeadLetter]

theorem waiting_nodup (s : Engine) (sub : SubscriptionRecord) :
    ((waiting s sub).map Prod.fst).Nodup := by
  have hsorted := scanPrefix_increasing s.kv.msg sub.topicId
  exact (hsorted.sublist (List.filter_sublist.map _)).imp fun hlt => hlt.ne

theorem ensures_touch_rest (hu : u.kv.WellFormed) (subId : Nat) (nowMs : Int) :
    Ensures (PubSubService.touch subId nowMs) u
      (fun _ v => ∃ kv, v = { u with kv := kv } ∧ Retouched settings u.kv kv)
      (fun _ _ => False) := by
  simp only [PubSubService.touch, ensures_ignore, ensures_onKv]
  exact (keeps_touch subId nowMs u.kv).mono (fun _ kv h => ⟨kv, rfl, h hu⟩)
    (fun _ kv h => ⟨kv, rfl, h hu⟩)

theorem contract_of_leaseNext (hmax : 0 < maxMessages) {c : CursorRecord} {subId topicId : Nat}
    {secs : Int} (hc : s.kv.cursors.get subId = some c) {out : List Delivered}
    (h : leaseNext subId topicId maxMessages nowMs secs s = .ok out t) :
    LeaseContract (leaseArgs s subId topicId maxMessages nowMs secs) s c out t := by
  have hcon := ((ensures_leaseNext_exact topicId nowMs secs hmax hc).of_ok h).contract hc
  exact ⟨hcon.returned, hcon.ascending, hcon.leased, hcon.removed, hcon.others, hcon.done,
    hcon.cursors, hcon.appended⟩

theorem ensures_leaseNext_filter (hmax : 0 < maxMessages) {c : CursorRecord} {subId : Nat}
    (hc : s.kv.cursors.get subId = some c) (topicId : Nat) (secs : Int) :
    Ensures (leaseNext subId topicId maxMessages nowMs secs) s
      (fun _ t => t.filters.get subId = some (s.filterOf subId)) (fun _ _ => True) := by
  simp only [leaseNext, ensures_ite, loadCursor, ensures_bind, ensures_get, hc, ensures_pure,
    ensures_compiledFilter_eq]
  refine ⟨fun hle => absurd hmax (not_lt.mpr hle), fun _ => ?_⟩
  refine (memory_leaseNextLocked (R := SameCache) _ c _).mono (fun _ t h => ?_)
    (fun _ _ _ => trivial)
  rw [show t.filters = _ from h, Engine.cacheFilter, Engine.filterOf]
  cases hf : s.filters.get subId with
  | some f => simp [hf]
  | none => simp

/-- What a pull leaves: the first of the waiting messages are leased, and nothing that waits
is done. -/
structure Handed (s t : Engine) (r : SubscriptionRecord) (n : Nat) (ds : List Delivered) :
    Prop where
  got : ds.map (fun d => (d.seq, d.message)) = (waiting s r).take n
  leased : ∀ d ∈ ds, ∃ l, t.leases.get r.id d.seq = some l ∧ l.generation < 2 ^ 64 ∧
    d.ackId = encodeAckId r.id d.seq l.generation
  others : ∀ q, q ∉ ds.map Delivered.seq → t.leases.get r.id q = s.leases.get r.id q ∧
    t.kv.dlv.get ⟨r.id, q⟩ = s.kv.dlv.get ⟨r.id, q⟩
  done : ∀ row ∈ scanPrefix s.kv.msg r.topicId, accepts (s.filterOf r.id) row.2.attributes →
    (t.kv.cursors.get r.id).map (·.isDone row.1) = (s.kv.cursors.get r.id).map (·.isDone row.1)
  msg : t.kv.msg = s.kv.msg
  filter : t.filters.get r.id = some (s.filterOf r.id)
  policy : reclaimPolicy t.kv r.id = reclaimPolicy s.kv r.id

theorem Drainable.leasable_iff (h : Drainable s name r nowMs) {c : CursorRecord} (n secs : Int)
    (row : Nat × MessageRecord) :
    leasable (leaseArgs s r.id r.topicId n nowMs secs) s c row =
      (!c.isDone row.1 && accepts (s.filterOf r.id) row.2.attributes) := by
  have hlapsed := h.lapsed row.1
  have hdead : deadLetters (leaseArgs s r.id r.topicId n nowMs secs) s c row = false := by
    simp [deadLetters, leaseArgs, h.never_dead]
  rw [leasable, hdead]
  simp [ready, leaseArgs, hlapsed.1, hlapsed.2]

theorem satSuccU32_lt (n : Nat) : satSuccU32 n < 2 ^ 64 := by
  unfold satSuccU32 u32Max
  omega

theorem Drainable.leaseNext (h : Drainable s name r nowMs) (hmax : 0 < maxMessages) (secs : Int) :
    ∃ ds t, OpenPubusb.leaseNext r.id r.topicId maxMessages nowMs secs s = .ok ds t ∧
      Handed s t r maxMessages.toNat ds ∧ t.WellFormed ∧ t.kv.subs = s.kv.subs := by
  obtain ⟨c, hc⟩ := h.cursor
  have hnone : NoneUndeliverable (leaseArgs s r.id r.topicId maxMessages nowMs secs) s c := by
    intro v _ hv
    have hdead := hv.2.1
    rw [show (leaseArgs s r.id r.topicId maxMessages nowMs secs).subId = r.id from rfl,
      h.never_dead] at hdead
    cases hdead
  obtain ⟨ds, t, hrun⟩ := (leaseNext_ok_iff h.wf.healthy r.topicId hmax nowMs secs hc).mpr hnone
  have htopic : ∀ x, s.kv.subs.get r.id = some x → x.topicId = r.topicId := by
    intro x hx
    rw [h.record, Option.some.injEq] at hx
    rw [hx]
  have hframe := (ensures_leaseNext h.wf htopic maxMessages nowMs secs).of_ok hrun
  have hcon := contract_of_leaseNext hmax hc hrun
  have hleased : leasedRows (leaseArgs s r.id r.topicId maxMessages nowMs secs) s c =
      (waiting s r).take maxMessages.toNat := by
    refine congrArg (List.take maxMessages.toNat) (List.filter_congr fun row _ => ?_)
    rw [h.leasable_iff, hc]
    rfl
  have hdead : ∀ row, deadLetters (leaseArgs s r.id r.topicId maxMessages nowMs secs) s c row =
      false := by
    intro row
    simp [deadLetters, leaseArgs, h.never_dead]
  have hgot : ds.map (fun d => (d.seq, d.message)) = (waiting s r).take maxMessages.toNat := by
    rw [hcon.returned, hleased, List.map_map]
    exact List.map_id' _
  have hseqs : ds.map Delivered.seq = ((waiting s r).take maxMessages.toNat).map Prod.fst := by
    rw [← hgot, List.map_map]
    rfl
  refine ⟨ds, t, hrun, ⟨hgot, fun d hd => ?_, fun q hq => ?_, fun row hrow hacc => ?_, ?_, ?_, ?_⟩,
    hframe.toCallFrame.wellFormed h.wf, hframe.extended.subs⟩
  · rw [hcon.returned] at hd
    obtain ⟨row, hrow, rfl⟩ := List.mem_map.mp hd
    exact ⟨_, (hcon.leased row hrow).1, satSuccU32_lt _, rfl⟩
  · refine hcon.others r.id q fun _ row _ hrow => ⟨?_, hdead row⟩
    by_contra hl
    rw [Bool.not_eq_false] at hl
    refine hq ?_
    rw [hseqs, ← hleased, ← hrow]
    refine List.mem_map_of_mem ?_
    rw [leasedRows_eq, List.mem_filter]
    exact ⟨‹_›, hl⟩
  · obtain ⟨c', hc', hdone⟩ := hcon.done
    rw [show t.kv.cursors.get r.id = some c' from hc', hc, Option.map_some, Option.map_some,
      Option.some.injEq, Bool.eq_iff_iff, hdone]
    refine ⟨fun hd => hd.elim id ?_, Or.inl⟩
    rintro ⟨row', hrow', hseq, hrej | hd⟩
    · -- a row of the log is found by its seq, so the rejected row is the accepted one
      have hmem : row' ∈ scanPrefix s.kv.msg r.topicId := (Budget.visited_initial _ _ _).subset hrow'
      have hsame : row'.2 = row.2 := by
        have h₁ := mem_scanPrefix.mp hmem
        have h₂ := mem_scanPrefix.mp hrow
        rw [hseq, h₂, Option.some.injEq] at h₁
        exact h₁.symm
      simp [rejected, leaseArgs, hsame, hacc] at hrej
    · rw [hdead] at hd
      cases hd
  · have happ := hcon.appended.1
    have hnone : (scannedRows (leaseArgs s r.id r.topicId maxMessages nowMs secs) s c).filter
        (deadLetters (leaseArgs s r.id r.topicId maxMessages nowMs secs) s c) = [] :=
      List.filter_eq_nil_iff.mpr fun row _ => by simp [hdead row]
    have hrows : deadLetterRows (leaseArgs s r.id r.topicId maxMessages nowMs secs) s c = [] := by
      rw [deadLetterRows, hnone]
      exact List.flatMap_eq_nil_iff.mpr fun _ _ => rfl
    rw [happ, hrows]
    rfl
  · exact (ensures_leaseNext_filter hmax hc r.topicId secs).of_ok hrun
  · unfold reclaimPolicy
    rw [hframe.extended.subs]

theorem Handed.touched {n : Nat} {ds : List Delivered} (h : Handed s u r n ds) {kv : Kv}
    (hkv : Retouched settings u.kv kv) : Handed s { u with kv := kv } r n ds where
  got := h.got
  leased := h.leased
  others q hq := ⟨(h.others q hq).1, (congrArg (·.get ⟨r.id, q⟩) hkv.dlv).trans (h.others q hq).2⟩
  done row hrow hacc := by
    show (kv.cursors.get r.id).map _ = _
    rw [hkv.cursors]
    exact h.done row hrow hacc
  msg := hkv.msg.trans h.msg
  filter := h.filter
  policy := (hkv.reclaimPolicy_eq r.id).trans h.policy

theorem Drainable.pull (h : Drainable s name r nowMs) (hmax : 1 ≤ maxMessages ∧ maxMessages ≤ 1000) :
    ∃ ds t, PubSubService.pullDelivered name maxMessages nowMs s = .ok (r, ds) t ∧
      Handed s t r maxMessages.toNat ds ∧ t.WellFormed ∧ Consistent t.kv ∧
      SubscriptionStore.get t.kv name = .ok { r with lastActivityTsMs := nowMs } := by
  have hvalid : validatePullMaxMessages (max maxMessages 1) = .ok () := by
    rw [max_eq_left hmax.1]
    exact if_pos hmax
  have hattached : ¬ (r.detached = true ∨ r.topic = deletedTopic) := by
    simp [h.attached.1, h.attached.2]
  have hpos : 0 < maxMessages := by omega
  obtain ⟨ds, u, hrun, hhanded, hwf, _⟩ := h.leaseNext hpos r.ackDeadlineSecs
  have hpull : Ensures (PubSubService.pullDelivered name maxMessages nowMs) s
      (fun a t => a = (r, ds) ∧ Handed s t r maxMessages.toNat ds) (fun _ _ => False) := by
    simp only [PubSubService.pullDelivered, PubSubService.attached, hvalid, liftResult,
      ensures_bind, ensures_pure, ensures_get, h.get, if_neg hattached]
    unfold Ensures
    rw [hrun]
    refine (ensures_touch_rest hwf.kv r.id nowMs).mono (fun _ v hv => ?_) (fun _ _ hf => hf)
    obtain ⟨kv, rfl, hkv⟩ := hv
    exact ⟨rfl, hhanded.touched hkv⟩
  obtain ⟨_, t, hok, rfl, ht⟩ := hpull.returns
  have hperform : perform nowMs (.pull name maxMessages) s = .ok (.delivered r.id ds) t := by
    simp only [perform, bind, EStateM.bind, hok]
    rfl
  have hstep : step s ⟨nowMs, .pull name maxMessages⟩ = (.delivered r.id ds, t) := by
    simp only [step, hperform]
  have hwf' := wellFormed_step h.wf ⟨nowMs, .pull name maxMessages⟩
  have hc' := ((step_path ⟨nowMs, .pull name maxMessages⟩ h.consistent h.wf.healthy).evolves
    h.consistent).consistent
  rw [hstep] at hwf' hc'
  have htouch : (Op.pull name maxMessages).touches = true := rfl
  obtain ⟨_, id, hactive, htouched⟩ :=
    (ensures_touching h.consistent h.wf.healthy htouch).of_ok hperform
  simp only [activeOn, hvalid, h.get, if_neg hattached, Option.some.injEq] at hactive
  exact ⟨ds, t, hok, ht, hwf', hc', get_of_touched h.consistent hc' h.get (hactive ▸ htouched)⟩

theorem Handed.hit_iff {n : Nat} {ds : List Delivered} (h : Handed s t r n ds)
    (hid : r.id < 2 ^ 64) (hseq : ∀ d ∈ ds, d.seq < 2 ^ 64) {i q : Nat} :
    Hit t.leases (ds.map Delivered.ackId) i q ↔ i = r.id ∧ q ∈ ds.map Delivered.seq := by
  have hdec : ∀ d ∈ ds, ∃ l, t.leases.get r.id d.seq = some l ∧
      decodeAckId d.ackId = some (r.id, d.seq, l.generation) := by
    intro d hd
    obtain ⟨l, hl, hgen, hack⟩ := h.leased d hd
    refine ⟨l, hl, ?_⟩
    rw [hack, decodeAckId_encodeAckId, Nat.mod_eq_of_lt hid, Nat.mod_eq_of_lt (hseq d hd),
      Nat.mod_eq_of_lt hgen]
  constructor
  · rintro ⟨ackId, hmem, l, _, hd⟩
    obtain ⟨d, hin, rfl⟩ := List.mem_map.mp hmem
    obtain ⟨l', _, hd'⟩ := hdec d hin
    rw [hd, Option.some.injEq, Prod.mk.injEq, Prod.mk.injEq] at hd'
    exact ⟨hd'.1, hd'.2.1 ▸ List.mem_map_of_mem hin⟩
  · rintro ⟨rfl, hq⟩
    obtain ⟨d, hmem, rfl⟩ := List.mem_map.mp hq
    obtain ⟨l, hl, hd⟩ := hdec d hmem
    exact ⟨d.ackId, List.mem_map_of_mem hmem, l, hl, hd⟩

/-- What a round leaves: the first of the waiting messages are done, the others wait on. -/
structure RoundSettled (s t : Engine) (r : SubscriptionRecord) (n : Nat) : Prop where
  waiting : waiting t r = (waiting s r).drop n
  lapsed : ∀ nowMs, NothingHeld s r.id nowMs → NothingHeld t r.id nowMs
  msg : t.kv.msg = s.kv.msg

theorem Handed.settled {n : Nat} {ds : List Delivered} (h : Handed s t r n ds)
    (hid : r.id < 2 ^ 64) (hseq : ∀ d ∈ ds, d.seq < 2 ^ 64) {c : CursorRecord}
    (hc : t.kv.cursors.get r.id = some c)
    (hack : Acknowledged r.id (ds.map Delivered.ackId) t u) (hfilters : u.filters = t.filters) :
    RoundSettled s u r n where
  msg := hack.msg.trans h.msg
  waiting := by
    obtain ⟨c', hc', hdone, _⟩ := hack.done hc
    have hseqs : ds.map Delivered.seq = ((OpenPubusb.waiting s r).take n).map Prod.fst := by
      rw [← h.got, List.map_map]
      rfl
    have hfilter : u.filterOf r.id = s.filterOf r.id := by
      rw [Engine.filterOf, hfilters, h.filter, Option.getD_some]
    rw [← filter_not_taken (waiting_nodup s r), ← hseqs]
    unfold OpenPubusb.waiting
    rw [List.filter_filter, hack.msg, h.msg, hfilter]
    refine List.filter_congr fun row hrow => ?_
    cases hacc : accepts (s.filterOf r.id) row.2.attributes with
    | false => simp
    | true =>
      have hsame := h.done row hrow hacc
      rw [hc, Option.map_some] at hsame
      obtain ⟨c₀, hc₀, hc₀d⟩ := Option.map_eq_some_iff.mp hsame.symm
      have hiff := hdone row.1
      simp only [h.hit_iff hid hseq, exists_eq_left] at hiff
      rw [hc', hc₀, Option.any_some, Option.any_some, hc₀d, Bool.and_true, Bool.and_true,
        Bool.eq_iff_iff]
      simp only [Bool.not_eq_true', Bool.and_eq_true, decide_eq_true_iff, ← Bool.not_eq_true, hiff,
        not_or, and_comm]
  lapsed now hnow q := by
    have hpolicy : reclaimPolicy u.kv r.id = reclaimPolicy s.kv r.id := by
      rw [← h.policy]
      unfold reclaimPolicy
      rw [hack.extended.subs]
    by_cases hq : q ∈ ds.map Delivered.seq
    · have hhit : Hit t.leases (ds.map Delivered.ackId) r.id q :=
        (h.hit_iff hid hseq).mpr ⟨rfl, hq⟩
      have hl := (hack.leases r.id q).1 hhit
      have hrow := (hack.row q).1 ⟨r.id, hhit⟩
      simp [Engine.heldAt, Engine.lastDelivery, hl, hrow, ReclaimPolicy.backsOff]
    · have hno : ∀ i, ¬ Hit t.leases (ds.map Delivered.ackId) i q :=
        fun i hhit => hq ((h.hit_iff hid hseq).mp hhit).2
      have hl := ((hack.leases r.id q).2 (hno r.id)).trans (h.others q hq).1
      have hrow := ((hack.row q).2 fun hex => hex.elim hno).trans (h.others q hq).2
      rw [Engine.heldAt, Engine.lastDelivery, hl, hrow, hpolicy]
      exact hnow q

theorem storedFilter_of_retouched {kv kv' : Kv} (h : Retouched settings kv kv') (subId : Nat) :
    storedFilter kv' subId = storedFilter kv subId := by
  have hkey := congrArg (Option.map fun key => key.1.2.2.2) (h.subs subId)
  rw [Option.map_map, Option.map_map] at hkey
  unfold storedFilter
  rw [show (kv'.subs.get subId).map SubscriptionRecord.filter = _ from hkey]
  rfl

theorem RoundSettled.touched {n : Nat} (h : RoundSettled s u r n) {kv : Kv}
    (hkv : Retouched settings u.kv kv) : RoundSettled s { u with kv := kv } r n where
  waiting := by
    rw [← h.waiting]
    unfold OpenPubusb.waiting Engine.filterOf
    simp only [hkv.msg, hkv.cursors, storedFilter_of_retouched hkv]
  lapsed now hnow q := by
    have hq := h.lapsed now hnow q
    rw [← hkv.reclaimPolicy_eq r.id] at hq
    simp only [Engine.heldAt, Engine.lastDelivery, hkv.dlv] at hq ⊢
    exact hq
  msg := hkv.msg.trans h.msg

theorem Drainable.round (h : Drainable s name r nowMs)
    (hmax : 1 ≤ maxMessages ∧ maxMessages ≤ 1000) :
    ∃ ds t u, PubSubService.pullDelivered name maxMessages nowMs s = .ok (r, ds) t ∧
      PubSubService.acknowledge name (ds.map Delivered.ackId) nowMs t = .ok () u ∧
      ds.map (fun d => (d.seq, d.message)) = (waiting s r).take maxMessages.toNat ∧
      RoundSettled s u r maxMessages.toNat ∧
      Drainable u name { r with lastActivityTsMs := nowMs } nowMs := by
  obtain ⟨ds, t, hpull, hhanded, hwf, hcons, hget⟩ := h.pull hmax
  have hseq : ∀ d ∈ ds, d.seq < 2 ^ 64 := by
    intro d hd
    have hmem : (d.seq, d.message) ∈ (waiting s r).take maxMessages.toNat := by
      rw [← hhanded.got]
      exact List.mem_map_of_mem hd
    exact h.seq_lt _ (List.mem_of_mem_filter (List.mem_of_mem_take hmem))
  have hcur : (t.kv.cursors.get r.id).isSome := by
    obtain ⟨id, _, hr⟩ := get_eq_ok hget
    rw [hcons.cursors, (hcons.subs.record hr).2, hr]
    rfl
  obtain ⟨c, hc⟩ := Option.isSome_iff_exists.mp hcur
  have hack : Ensures (PubSubService.acknowledge name (ds.map Delivered.ackId) nowMs) t
      (fun _ u => RoundSettled s u r maxMessages.toNat) (fun _ _ => False) := by
    simp only [PubSubService.acknowledge, ensures_bind, ensures_get, hget, liftResult, ensures_pure]
    have hcache : Keeps SameCache (acknowledge r.id (ds.map Delivered.ackId)) :=
      memory_acknowledge r.id _
    refine ((ensures_acknowledge _ hwf.healthy hwf.coherent).and (hcache t)).mono
      (fun _ u hu => ?_) (fun _ _ hno => ?_)
    · have hsettled := hhanded.settled h.id_lt hseq hc hu.1 hu.2
      refine (ensures_touch_rest (hu.1.toCallFrame.wellFormed hwf).kv r.id nowMs).mono
        (fun _ v hv => ?_) (fun _ _ hf => hf)
      obtain ⟨kv, rfl, hkv⟩ := hv
      exact hsettled.touched hkv
    · rw [hno.1.2] at hc
      cases hc
  obtain ⟨⟨⟩, u, hok, hsettled⟩ := hack.returns
  have hperform : perform nowMs (.acknowledge name (ds.map Delivered.ackId)) t = .ok .done u := by
    simp only [perform, bind, EStateM.bind, hok]
    rfl
  have hstep : step t ⟨nowMs, .acknowledge name (ds.map Delivered.ackId)⟩ = (.done, u) := by
    simp only [step, hperform]
  have hwf' := wellFormed_step hwf ⟨nowMs, .acknowledge name (ds.map Delivered.ackId)⟩
  have hc' := ((step_path ⟨nowMs, .acknowledge name (ds.map Delivered.ackId)⟩ hcons
    hwf.healthy).evolves hcons).consistent
  rw [hstep] at hwf' hc'
  have htouch : (Op.acknowledge name (ds.map Delivered.ackId)).touches = true := rfl
  obtain ⟨_, id, hactive, htouched⟩ :=
    (ensures_touching hcons hwf.healthy htouch).of_ok hperform
  simp only [activeOn, subscriptionId, hget, Option.some.injEq] at hactive
  have hget' := get_of_touched (r := { r with lastActivityTsMs := nowMs }) hcons hc' hget
    (hactive ▸ htouched)
  refine ⟨ds, t, u, hpull, hok, hhanded.got, hsettled, hwf', hc', hget', h.attached, h.noDeadLetter,
    hsettled.lapsed nowMs h.lapsed, h.id_lt, fun row hrow => h.seq_lt row ?_⟩
  rw [hsettled.msg] at hrow
  exact hrow

theorem Drainable.consume (h : Drainable s name r nowMs)
    (hmax : 1 ≤ maxMessages ∧ maxMessages ≤ 1000) (rounds : Nat) :
    ∃ ds t, OpenPubusb.consume name maxMessages nowMs rounds s = .ok ds t ∧
      ds.map (fun d => (d.seq, d.message)) = (waiting s r).take (rounds * maxMessages.toNat) ∧
      waiting t r = (waiting s r).drop (rounds * maxMessages.toNat) := by
  induction rounds generalizing s r with
  | zero => exact ⟨[], s, rfl, by simp, by simp⟩
  | succ rounds ih =>
    obtain ⟨ds, t, u, hpull, hack, hgot, hsettled, hnext⟩ := h.round hmax
    obtain ⟨ds', v, hrest, hgot', hleft⟩ := ih hnext
    have hwait : waiting u { r with lastActivityTsMs := nowMs } =
        (waiting s r).drop maxMessages.toNat := hsettled.waiting
    refine ⟨ds ++ ds', v, ?_, ?_, ?_⟩
    · simp only [OpenPubusb.consume, bind, EStateM.bind, hpull, hack, hrest]
      rfl
    · rw [List.map_append, hgot, hgot', hwait, Nat.succ_mul, Nat.add_comm, List.take_add]
    · rw [show waiting v r = _ from hleft, hwait, List.drop_drop, Nat.succ_mul, Nat.add_comm]

end Rounds

/-- In every reachable state where nothing of an attached subscription without a dead-letter
topic is held back, a consumer that pulls and acknowledges for as many rounds as the backlog
takes is handed the whole backlog, in log order and each message once, and leaves none. -/
theorem consumer_drains (is : List Input) {name : String} {r : SubscriptionRecord}
    (hget : SubscriptionStore.get (Run.final step start is).kv name = .ok r)
    (hattached : r.detached = false ∧ r.topic ≠ deletedTopic) (hdead : r.deadLetterTopic = none)
    {maxMessages : Int} (hmax : 1 ≤ maxMessages ∧ maxMessages ≤ 1000) {nowMs : Int}
    (hfree : NothingHeld (Run.final step start is) r.id nowMs)
    (hu64 : (Run.final step start is).kv.counter < 2 ^ 64 ∧
      TopicStore.currentTail (Run.final step start is).kv r.topicId < 2 ^ 64)
    {rounds : Nat}
    (hrounds : (waiting (Run.final step start is) r).length ≤ rounds * maxMessages.toNat) :
    ∃ ds t, consume name maxMessages nowMs rounds (Run.final step start is) = .ok ds t ∧
      ds.map (fun d => (d.seq, d.message)) = waiting (Run.final step start is) r ∧
      waiting t r = [] := by
  have hwf := wellFormed_final is
  have hcons := (consistent_final is).1
  have hrecord := (hcons.record_of_get hget).1
  have hid : r.id ≤ (Run.final step start is).kv.counter := hcons.sub_known (by rw [hrecord]; rfl)
  have hdrain : Drainable (Run.final step start is) name r nowMs := by
    refine ⟨hwf, hcons, hget, hattached, hdead, hfree, by omega, fun row hrow => ?_⟩
    exact lt_of_le_of_lt (hwf.kv.log (mem_scanPrefix.mp hrow)) hu64.2
  obtain ⟨ds, t, hrun, hgot, hleft⟩ := hdrain.consume hmax rounds
  exact ⟨ds, t, hrun, hgot.trans (List.take_of_length_le hrounds),
    hleft.trans (List.drop_of_length_le hrounds)⟩

def threeMessages : List Input :=
  setup {} ++ [⟨1, .publish "projects/p/topics/top1" [⟨[4], ∅, ""⟩, ⟨[5], ∅, ""⟩]⟩]

/-- The record can be drained, and its backlog takes two rounds. -/
def drainsInTwo (s : Engine) (r : SubscriptionRecord) : Bool :=
  !r.detached && r.topic ≠ deletedTopic && r.deadLetterTopic.isNone &&
    TopicStore.currentTail s.kv r.topicId < 2 ^ 64 && (waiting s r).length ≤ 2 * 2

theorem consumer_drains_three : ∃ r ds t,
    consume "projects/p/subscriptions/subA" 2 5 2 (Run.final step start threeMessages) = .ok ds t ∧
      ds.map (fun d => (d.seq, d.message)) = waiting (Run.final step start threeMessages) r ∧
      waiting t r = [] := by
  have hsub : (SubscriptionStore.get (Run.final step start threeMessages).kv
      "projects/p/subscriptions/subA").toOption.any
        (drainsInTwo (Run.final step start threeMessages)) = true := by decide +kernel
  have hleases : (Run.final step start threeMessages).leases.byKey.entries.isEmpty = true := by
    decide +kernel
  have hrows : (Run.final step start threeMessages).kv.dlv.entries.isEmpty = true := by
    decide +kernel
  have hcounter : (Run.final step start threeMessages).kv.counter < 2 ^ 64 := by decide +kernel
  rw [Option.any_eq_true] at hsub
  obtain ⟨r, hr, hdrains⟩ := hsub
  simp only [drainsInTwo, Bool.and_eq_true, Bool.not_eq_true', decide_eq_true_iff,
    Option.isNone_iff_eq_none] at hdrains
  obtain ⟨⟨⟨⟨hdetached, htopic⟩, hdead⟩, htail⟩, hlen⟩ := hdrains
  have hget : SubscriptionStore.get (Run.final step start threeMessages).kv
      "projects/p/subscriptions/subA" = .ok r := by
    cases hg : SubscriptionStore.get (Run.final step start threeMessages).kv
      "projects/p/subscriptions/subA" with
    | ok r' => rw [hg] at hr; exact congrArg Except.ok (Option.some.inj hr)
    | error e => rw [hg] at hr; cases hr
  have hfree : NothingHeld (Run.final step start threeMessages) r.id 5 := by
    intro q
    have hl : (Run.final step start threeMessages).leases.get r.id q = none := by
      rw [LeaseTable.get, SortedMap.get, List.isEmpty_iff.mp hleases]
      rfl
    have hd : (Run.final step start threeMessages).kv.dlv.get ⟨r.id, q⟩ = none := by
      rw [SortedMap.get, List.isEmpty_iff.mp hrows]
      rfl
    simp [Engine.heldAt, Engine.lastDelivery, hl, hd, ReclaimPolicy.backsOff]
  obtain ⟨ds, t, h⟩ := consumer_drains threeMessages hget ⟨hdetached, htopic⟩ hdead
    (by decide : (1 : Int) ≤ 2 ∧ (2 : Int) ≤ 1000) hfree ⟨hcounter, htail⟩ hlen
  exact ⟨r, ds, t, h⟩

end OpenPubusb
