import OpenPubusb.AckIds
import OpenPubusb.Isolation
import OpenPubusb.Push
import OpenPubusb.RecordUpdates
import OpenPubusb.Redelivery

/-! When a message is due again after a failed push. The dispatcher turns the
backoff into a deadline, and an explicit retry policy adds the backoff to that
deadline once more. -/

namespace OpenPubusb

open Hoare

section Backoff

variable {minSecs maxSecs : Int}

/-- The backoff after the `k`-th failed push, without a cap on the exponent. -/
def pushBackoffMs (k : Nat) (minSecs maxSecs : Int) : Nat :=
  min (max (minSecs.toNat * 1000) 100 * 2 ^ (k - 1))
    (max (maxSecs.toNat * 1000) (max (minSecs.toNat * 1000) 100))

theorem backoffForAttempts_eq (k : Nat) (minSecs : Int) (hmax : maxSecs ≤ 600) :
    backoffForAttempts k minSecs maxSecs = pushBackoffMs k minSecs maxSecs := by
  unfold backoffForAttempts pushBackoffMs minPossibleBackoffMs
  by_cases hk : k - 1 ≤ 20
  · rw [min_eq_left hk]
  · have hpow : 2 ^ 20 ≤ 2 ^ (k - 1) := Nat.pow_le_pow_right (by omega) (by omega)
    have hcap : ∀ p, 2 ^ 20 ≤ p → max (maxSecs.toNat * 1000) (max (minSecs.toNat * 1000) 100) ≤
        max (minSecs.toNat * 1000) 100 * p := by
      intro p hp
      have hmul : max (minSecs.toNat * 1000) 100 * 2 ^ 20 ≤ max (minSecs.toNat * 1000) 100 * p :=
        Nat.mul_le_mul_left _ hp
      omega
    rw [min_eq_right (by omega : 20 ≤ k - 1), min_eq_right (hcap _ le_rfl),
      min_eq_right (hcap _ hpow)]

theorem pushBackoffMs_le (k : Nat) (hmin : minSecs ≤ 600) (hmax : maxSecs ≤ 600) :
    pushBackoffMs k minSecs maxSecs ≤ 600000 := by
  have hle : pushBackoffMs k minSecs maxSecs ≤
      max (maxSecs.toNat * 1000) (max (minSecs.toNat * 1000) 100) := min_le_right _ _
  omega

theorem le_pushBackoffMs (k : Nat) (minSecs maxSecs : Int) :
    100 ≤ pushBackoffMs k minSecs maxSecs := by
  have hmul : max (minSecs.toNat * 1000) 100 * 1 ≤ max (minSecs.toNat * 1000) 100 * 2 ^ (k - 1) :=
    Nat.mul_le_mul_left _ (Nat.one_le_two_pow)
  unfold pushBackoffMs
  omega

theorem pushBackoffMs_default (k : Nat) :
    pushBackoffMs k 10 600 / 1000 * 1000 = pushBackoffMs k 10 600 ∧
      10000 ≤ pushBackoffMs k 10 600 := by
  have hmul : 10000 * 1 ≤ 10000 * 2 ^ (k - 1) := Nat.mul_le_mul_left _ (Nat.one_le_two_pow)
  have heq : pushBackoffMs k 10 600 = min (10000 * 2 ^ (k - 1)) 600000 := rfl
  rw [heq]
  generalize 2 ^ (k - 1) = p at *
  omega

theorem deadlineSecs_eq {b : Nat} (h : b ≤ 600000) :
    Dispatcher.deadlineSecs b = max ((b / 1000 : Nat) : Int) 1 := by
  have hmin : min (max ((b / 1000 : Nat) : Int) 1) i64Max = max ((b / 1000 : Nat) : Int) 1 := by
    simp only [i64Max]
    omega
  have hmod : ∀ x, wrapI32 x = Int.bmod x 4294967296 := fun _ => rfl
  rw [Dispatcher.deadlineSecs, hmin, hmod, Int.bmod_def]
  omega

end Backoff

section Numbered

variable {s : Engine}

/-- Every lease and every row is at the generation of its attempt. -/
def AllNumbered (s : Engine) : Prop := ∀ subId seq, (s.slot subId seq).Numbered

theorem ensures_modify_numbered {subId : Nat} (ackIds : List String) (nowMs seconds : Int)
    (hh : s.kv.Healthy) (hs : AllNumbered s) (E : Error → Engine → Prop) :
    Ensures (modifyAckDeadline subId ackIds nowMs seconds) s (fun _ t => AllNumbered t) E := by
  induction ackIds generalizing s with
  | nil => exact hs
  | cons ackId ackIds ih =>
    simp only [modifyAckDeadline, setLeases, ensures_bind, ensures_get, ensures_modify]
    rcases s.leases.resolveAck_cases ackId
      (fun i q l => (s.leases.reschedule i q l (LeaseTable.extendedDeadline nowMs seconds),
        .applied { l with deadlineMs := LeaseTable.extendedDeadline nowMs seconds })) with
      ⟨i, q, l, hl, _, he⟩ | ⟨_, he, hout⟩
    · have hext : s.leases.extend ackId nowMs seconds =
          (s.leases.reschedule i q l (LeaseTable.extendedDeadline nowMs seconds),
            .applied { l with deadlineMs := LeaseTable.extendedDeadline nowMs seconds }) := he
      have hnum : l.generation = l.attempts := by
        refine (hs i q).lease l.record ?_
        simp only [Engine.slot, hl, Option.map_some]
      simp only [hext, ensures_bind, ensures_onKv, putDlv, ensures_kvWrite_healthy hh]
      refine @ih { s with
        leases := s.leases.reschedule i q l (LeaseTable.extendedDeadline nowMs seconds)
        kv := { s.kv.tick with
          dlv := s.kv.dlv.insert ⟨subId, l.seq⟩
            ⟨LeaseTable.extendedDeadline nowMs seconds, l.attempts, l.generation⟩ } }
        (fun n => hh n) fun j p => ⟨fun r hr => ?_, fun r hr => ?_⟩
      · obtain ⟨x, hx, rfl⟩ := Option.map_eq_some_iff.mp hr
        rw [LeaseTable.get_reschedule] at hx
        split_ifs at hx
        · cases hx
          exact hnum
        · refine (hs j p).lease x.record ?_
          simp only [Engine.slot, hx, Option.map_some]
      · simp only [Engine.slot, SortedMap.get_insert] at hr
        split_ifs at hr
        · cases hr
          exact hnum
        · exact (hs j p).row r hr
    · have hext : (s.leases.extend ackId nowMs seconds).1 = s.leases := he
      rw [hext]
      cases ho : (s.leases.extend ackId nowMs seconds).2 with
      | applied l => exact absurd ho (hout l)
      | _ => exact ih hh hs

theorem allNumbered_step (hwf : s.WellFormed) (hs : AllNumbered s) (i : Input) :
    AllNumbered (step s i).2 := by
  cases hm : modifyCall s.kv i.op with
  | none =>
    have hown : NoForeignModify s i.op := fun _ _ _ h => by
      rw [hm] at h
      cases h
    intro subId seq
    obtain ⟨e, he⟩ := (step_refines hwf hown).slots subId seq
    rw [he.slot]
    exact (hs subId seq).apply he.enabled
  | some call =>
    obtain ⟨subId, ackIds, seconds⟩ := call
    refine ensures_step (ensures_perform_modify hwf hm
      (fun E => ensures_modify_numbered ackIds i.nowMs seconds hwf.healthy hs E)
      fun t u ht hl hd _ => ?_)
    intro j p
    refine ⟨fun r hr => (ht j p).lease r ?_, fun r hr => (ht j p).row r ?_⟩
    · simpa only [Engine.slot, hl] using hr
    · simpa only [Engine.slot, hd] using hr

theorem allNumbered_final (is : List Input) : AllNumbered (Run.final step start is) := by
  have hinv : (Run.final step start is).WellFormed ∧ AllNumbered (Run.final step start is) := by
    refine Run.inv_final (C := fun _ => True) (P := fun s : Engine => s.WellFormed ∧ AllNumbered s)
      (fun s i h _ => ⟨wellFormed_step h.1 i, allNumbered_step h.1 h.2 i⟩)
      ⟨wellFormed_start, fun _ _ => ?_⟩ (fun _ _ => trivial)
    exact ⟨fun _ h => (by cases h), fun _ h => (by cases h)⟩
  exact hinv.2

end Numbered

section Policies

/-- The retry bounds of a record are in range, and the defaults when the policy was never
set. -/
structure RetryBounded (r : SubscriptionRecord) : Prop where
  minBackoff : 0 ≤ r.minRetryBackoffSecs ∧ r.minRetryBackoffSecs ≤ 600
  maxBackoff : 0 ≤ r.maxRetryBackoffSecs ∧ r.maxRetryBackoffSecs ≤ 600
  defaults : r.retryPolicyExplicit = false →
    r.minRetryBackoffSecs = 10 ∧ r.maxRetryBackoffSecs = 600

theorem retryBounded_newRecord {name topic : String} {opts : CreateSubscriptionOptions}
    {topicId : Nat} {nowMs n : Int} {id : Nat}
    (hopts : SubscriptionStore.checkOptions name topic opts = .ok n) :
    RetryBounded (SubscriptionStore.newRecord name topic topicId nowMs opts n id) := by
  have hin := @within_newRecord name topic opts topicId nowMs n id hopts
  refine ⟨hin.minBackoff, hin.maxBackoff, fun hd => ?_⟩
  simp only [SubscriptionStore.newRecord, Bool.or_eq_false_iff, Option.isSome_eq_false_iff,
    Option.isNone_iff_eq_none] at hd ⊢
  simp only [hd.1, hd.2, Option.getD_none, and_self]

theorem RetryBounded.patched {r : SubscriptionRecord} {patch : SubscriptionUpdatePatch}
    (hr : RetryBounded r) (hpatch : SubscriptionStore.checkPatch patch = .ok ()) :
    RetryBounded (SubscriptionStore.patched r patch) := by
  obtain ⟨_, _, _, hmin, hmax⟩ := checkPatch_eq_ok hpatch
  refine ⟨?_, ?_, fun hd => ?_⟩
  · exact getD_of_checked (P := fun v : Int => 0 ≤ v ∧ v ≤ 600)
      (fun v hv => validateRange_eq_ok.mp (hmin v hv)) hr.minBackoff
  · exact getD_of_checked (P := fun v : Int => 0 ≤ v ∧ v ≤ 600)
      (fun v hv => validateRange_eq_ok.mp (hmax v hv)) hr.maxBackoff
  · simp only [SubscriptionStore.patched, Bool.or_eq_false_iff, Option.isSome_eq_false_iff,
      Option.isNone_iff_eq_none] at hd ⊢
    simp only [hd.1.2, hd.2, Option.getD_none]
    exact hr.defaults hd.1.1

theorem retryBounded_final (is : List Input) {id : Nat} {r : SubscriptionRecord}
    (hr : (Run.final step start is).kv.subs.get id = some r) : RetryBounded r := by
  have hinv : Consistent (Run.final step start is).kv ∧ (Run.final step start is).kv.Healthy ∧
      ∀ id r, (Run.final step start is).kv.subs.get id = some r → RetryBounded r := by
    refine Run.inv_final (C := fun _ => True)
      (P := fun s : Engine => Consistent s.kv ∧ s.kv.Healthy ∧
        ∀ id r, s.kv.subs.get id = some r → RetryBounded r)
      (fun s i h _ => ?_) ⟨consistent_empty, fun _ => rfl, fun _ _ h => by cases h⟩
      (fun _ _ => trivial)
    have hev := (step_path i h.1 h.2.1).evolves h.1
    refine ⟨hev.consistent, hev.healthy h.2.1, fun id r' hr' => ?_⟩
    cases step_record h.1 h.2.1 i hr' with
    | @rewritten r _ hr hw =>
      have hold := h.2.2 id r hr
      generalize i.op = op at hw
      cases hw with
      | update _ patch hpatch => exact hold.patched hpatch
      | _ => exact ⟨hold.minBackoff, hold.maxBackoff, hold.defaults⟩
    | orphaned hop hr =>
      have hold := h.2.2 id _ hr
      exact ⟨hold.minBackoff, hold.maxBackoff, hold.defaults⟩
    | created hop hopts => exact retryBounded_newRecord hopts
  exact hinv.2.2 id r hr

end Policies

section Gates

variable {s : Engine} {subId seq : Nat} {nowMs : Int}

/-- Whether `lease_next` passes over a message that is not done and passes the filter. -/
def Engine.gated (s : Engine) (nowMs : Int) (subId seq : Nat) : Bool :=
  s.heldAt nowMs subId seq || (reclaimPolicy s.kv subId).backsOff nowMs (s.lastDelivery subId seq)

theorem ready_eq_gated {a : LeaseArgs} {c : CursorRecord} {row : Nat × MessageRecord} :
    ready a s c row = (!c.isDone row.1 && accepts a.filter row.2.attributes &&
      !s.gated a.nowMs a.subId row.1) := by
  simp only [ready, Engine.gated, Bool.not_or, Bool.and_assoc]

def Engine.opensAt (s : Engine) (subId seq : Nat) : Option Int :=
  let policy := reclaimPolicy s.kv subId
  match s.leases.get subId seq, s.kv.dlv.get ⟨subId, seq⟩ with
  | some l, _ => some (if policy.retryPolicyExplicit
      then max l.deadlineMs (policy.eligibleAt l.deadlineMs l.attempts) else l.deadlineMs)
  | none, some r =>
    if policy.retryPolicyExplicit then some (policy.eligibleAt r.deadlineMs r.attempts) else none
  | none, none => none

theorem gated_iff :
    s.gated nowMs subId seq = true ↔ ∃ e, s.opensAt subId seq = some e ∧ nowMs < e := by
  unfold Engine.gated Engine.opensAt Engine.heldAt Engine.lastDelivery ReclaimPolicy.backsOff
  cases hexp : (reclaimPolicy s.kv subId).retryPolicyExplicit with
  | false => cases s.leases.get subId seq <;> cases s.kv.dlv.get ⟨subId, seq⟩ <;> simp [hexp]
  | true =>
    cases s.leases.get subId seq with
    | some l => simp [Lease.record, hexp]
    | none => cases s.kv.dlv.get ⟨subId, seq⟩ <;> simp [hexp]

/-- The message is passed over until the given time, and not later than a second after. -/
structure RetriesAt (s : Engine) (subId seq : Nat) (dueMs : Int) : Prop where
  held : ∀ nowMs < dueMs, s.gated nowMs subId seq = true
  opened : ∀ nowMs, dueMs + 1000 ≤ nowMs → s.gated nowMs subId seq = false

theorem retriesAt_iff {dueMs : Int} : RetriesAt s subId seq dueMs ↔
    ∃ e, s.opensAt subId seq = some e ∧ dueMs ≤ e ∧ e ≤ dueMs + 1000 := by
  constructor
  · intro h
    obtain ⟨e, he, hlt⟩ := gated_iff.mp (h.held (dueMs - 1) (by omega))
    have hopen := h.opened (dueMs + 1000) le_rfl
    refine ⟨e, he, by omega, ?_⟩
    by_contra hle
    have hgated : s.gated (dueMs + 1000) subId seq = true := gated_iff.mpr ⟨e, he, by omega⟩
    rw [hopen] at hgated
    cases hgated
  · rintro ⟨e, he, hlo, hhi⟩
    refine ⟨fun nowMs hnow => gated_iff.mpr ⟨e, he, by omega⟩, fun nowMs hnow => ?_⟩
    by_contra hgated
    obtain ⟨e', he', hlt⟩ := gated_iff.mp (by simpa using hgated)
    rw [he, Option.some.injEq] at he'
    omega

/-- A call that may lease every message that is not done serves no message before its
time, and a second later it serves it unless an undeliverable one is in the way. -/
theorem RetriesAt.serves_iff {dueMs : Int} (h : RetriesAt s subId seq dueMs) (hh : s.kv.Healthy)
    {c : CursorRecord} (hc : s.kv.cursors.get subId = some c) (topicId : Nat)
    {maxMessages : Int} (nowMs secs : Int) (hmax : (undone s.kv topicId c : Int) ≤ maxMessages) :
    (nowMs < dueMs →
      ¬ Serves s (leaseNext subId topicId maxMessages nowMs secs s) subId seq) ∧
    (dueMs + 1000 ≤ nowMs →
      (Serves s (leaseNext subId topicId maxMessages nowMs secs s) subId seq ↔
        ∃ m, s.kv.msg.get ⟨topicId, seq⟩ = some m ∧ c.isDone seq = false ∧
          accepts (s.filterOf subId) m.attributes = true ∧
          Unhindered (leaseArgs s subId topicId maxMessages nowMs secs) s c (seq, m))) := by
  have hready : ∀ m, ready (leaseArgs s subId topicId maxMessages nowMs secs) s c (seq, m) =
      (!c.isDone seq && accepts (s.filterOf subId) m.attributes && !s.gated nowMs subId seq) :=
    fun _ => ready_eq_gated
  simp only [leaseNext_serves_ready_iff hh topicId nowMs secs hc rfl hmax, hready]
  refine ⟨fun hnow => ?_, fun hnow => ?_⟩
  · rw [h.held nowMs hnow]
    simp
  · rw [h.opened nowMs hnow]
    simp [and_assoc]

/-- The gates look at the lease, the row and the policy of the subscription. -/
theorem opensAt_congr {t : Engine} (hl : t.leases = s.leases) (hd : t.kv.dlv = s.kv.dlv)
    (hp : reclaimPolicy t.kv subId = reclaimPolicy s.kv subId) :
    t.opensAt subId seq = s.opensAt subId seq := by
  unfold Engine.opensAt
  rw [hl, hd, hp]

end Gates

section Deliver

variable {s : Engine} {subId seq : Nat} {t : Int}

theorem Retouched.reclaimPolicy_eq {kv kv' : Kv} (h : Retouched settings kv kv') (id : Nat) :
    reclaimPolicy kv' id = reclaimPolicy kv id := by
  have hkey := h.subs id
  unfold reclaimPolicy
  cases hr : kv.subs.get id with
  | none =>
    rw [hr, Option.map_none, Option.map_eq_none_iff] at hkey
    rw [hkey]
  | some r =>
    rw [hr, Option.map_some, Option.map_eq_some_iff] at hkey
    obtain ⟨r', hr', hset⟩ := hkey
    simp only [settings, identity, Prod.mk.injEq] at hset
    obtain ⟨⟨_, hname, _, _⟩, htopic, hmax, hlo, hhi, hexp⟩ := hset
    rw [hr']
    simp only [hname, htopic, hmax, hlo, hhi, hexp]

/-- The gates after a deadline change of the stream are those after the change itself. -/
theorem ensures_streamModify_opensAt {u : Engine} (streamId : Nat) (ackId : String) {secs : Int}
    (hsecs : 0 < secs) (hu : u.kv.WellFormed)
    (hmod : modifyAckDeadline subId [ackId] t secs s = .ok () u) :
    Ensures (PubSubService.streamModifyAckDeadline streamId subId [ackId] t secs) s
      (fun _ v => ∀ q, v.opensAt subId q = u.opensAt subId q) (fun _ _ => False) := by
  simp only [PubSubService.streamModifyAckDeadline, streamModifyAckDeadline, ensures_bind,
    if_neg (not_le.mpr hsecs), ensures_pure]
  unfold Ensures
  rw [hmod]
  change Ensures (PubSubService.touch subId t) u _ _
  simp only [PubSubService.touch, ensures_ignore, ensures_onKv]
  refine (keeps_touch subId t u.kv).mono (fun _ kv h q => ?_) (fun _ kv h q => ?_)
  all_goals exact opensAt_congr rfl (h hu).dlv ((h hu).reclaimPolicy_eq subId)

theorem modifyAckDeadline_unnamed {ackId : String} (hno : ∀ i q, ¬ s.leases.Names ackId i q)
    (secs : Int) : modifyAckDeadline subId [ackId] t secs s = .ok () s := by
  have h : Ensures (modifyAckDeadline subId [ackId] t secs) s (fun _ u => u = s)
      (fun _ _ => False) := by
    simp only [modifyAckDeadline, setLeases, ensures_bind, ensures_get, ensures_modify]
    rcases s.leases.resolveAck_cases ackId
      (fun i q l => (s.leases.reschedule i q l (LeaseTable.extendedDeadline t secs),
        .applied { l with deadlineMs := LeaseTable.extendedDeadline t secs })) with
      ⟨i, q, l, hl, hd, _⟩ | ⟨_, he, hout⟩
    · exact absurd ⟨l, hl, hd⟩ (hno i q)
    · have hext : (s.leases.extend ackId t secs).1 = s.leases := he
      rw [hext]
      cases ho : (s.leases.extend ackId t secs).2 with
      | applied l => exact absurd ho (hout l)
      | _ => rfl
  obtain ⟨_, u, hu, rfl⟩ := h.returns
  exact hu

theorem opensAt_nacked (l : Lease) (d : Int) :
    (s.nacked subId seq l d).opensAt subId seq =
      some (if (reclaimPolicy s.kv subId).retryPolicyExplicit
        then max d ((reclaimPolicy s.kv subId).eligibleAt d l.attempts) else d) := by
  have hl : (s.nacked subId seq l d).leases.get subId seq = some { l with deadlineMs := d } := by
    simp only [Engine.nacked, LeaseTable.get_reschedule, and_self, if_true]
  have hpolicy : reclaimPolicy (s.nacked subId seq l d).kv subId = reclaimPolicy s.kv subId := rfl
  unfold Engine.opensAt
  rw [hl, hpolicy]

theorem nacked_wellFormed (hwf : s.WellFormed) {l : Lease} (hl : s.leases.get subId seq = some l)
    (d : Int) : (s.nacked subId seq l d).WellFormed :=
  hwf.of_rest ⟨_, _, rfl⟩ (hwf.coherent.reschedule hl _) rfl

theorem extendedDeadline_eq {secs : Int} (hpos : 0 < secs) (hlo : i64Min ≤ t)
    (hhi : t + secs * 1000 ≤ i64Max) : LeaseTable.extendedDeadline t secs = t + secs * 1000 := by
  have hmod : ∀ x, wrapI64 x = Int.bmod x 18446744073709551616 := fun _ => rfl
  unfold LeaseTable.extendedDeadline
  rw [if_neg (by omega), hmod, Int.bmod_def]
  simp only [i64Min, i64Max] at hlo hhi
  omega

/-- The lease of the failed push is due after the whole seconds of the backoff, and an
explicit policy then waits for the backoff itself. -/
theorem failed_opensAt {r : SubscriptionRecord} (hr : s.kv.subs.get subId = some r)
    (hbound : RetryBounded r) (l : Lease) (hlo : i64Min ≤ t) (hhi : t + 1200000 ≤ i64Max) :
    let b := pushBackoffMs l.attempts r.minRetryBackoffSecs r.maxRetryBackoffSecs
    (s.nacked subId seq l (LeaseTable.extendedDeadline t (Dispatcher.deadlineSecs b))).opensAt
      subId seq = some (t + max ((b / 1000 : Nat) : Int) 1 * 1000 +
        if r.retryPolicyExplicit then (b : Int) else 0) := by
  intro b
  have hb : b ≤ 600000 := pushBackoffMs_le _ hbound.minBackoff.2 hbound.maxBackoff.2
  have hsecs : Dispatcher.deadlineSecs b = max ((b / 1000 : Nat) : Int) 1 := deadlineSecs_eq hb
  have hdue : LeaseTable.extendedDeadline t (Dispatcher.deadlineSecs b) =
      t + max ((b / 1000 : Nat) : Int) 1 * 1000 := by
    rw [hsecs]
    exact extendedDeadline_eq (by omega) hlo (by omega)
  rw [hdue, opensAt_nacked]
  have hpolicy : reclaimPolicy s.kv subId = ⟨r.name, r.minRetryBackoffSecs, r.maxRetryBackoffSecs,
      r.retryPolicyExplicit, ⟨r.deadLetterTopic, r.maxDeliveryAttempts⟩⟩ := by
    rw [reclaimPolicy, hr]
  have heligible : (reclaimPolicy s.kv subId).eligibleAt
      (t + max ((b / 1000 : Nat) : Int) 1 * 1000) l.attempts =
      t + max ((b / 1000 : Nat) : Int) 1 * 1000 + b := by
    rw [hpolicy]
    simp only [ReclaimPolicy.eligibleAt]
    rw [backoffForAttempts_eq _ _ hbound.maxBackoff.2]
    exact satI64_of_range (by omega) (by omega)
  rw [heligible, hpolicy]
  cases r.retryPolicyExplicit with
  | false => simp
  | true =>
    have hmax : max (t + max ((b / 1000 : Nat) : Int) 1 * 1000)
        (t + max ((b / 1000 : Nat) : Int) 1 * 1000 + b) =
          t + max ((b / 1000 : Nat) : Int) 1 * 1000 + b := by omega
    simp only [if_true, hmax]

theorem deliverOne_failed_opensAt {r : SubscriptionRecord} {d : Delivered} {u : Engine}
    (hbound : RetryBounded r) (streamId : Nat) (hu : u.kv.WellFormed)
    (hmod : modifyAckDeadline r.id [d.ackId] t (Dispatcher.deadlineSecs
      (pushBackoffMs d.deliveryAttempt r.minRetryBackoffSecs r.maxRetryBackoffSecs)) s = .ok () u) :
    ∃ v, Dispatcher.deliverOne false streamId r.id (.ofDelivered true d) r.minRetryBackoffSecs
      r.maxRetryBackoffSecs t s = .ok () v ∧
      ∀ q, v.opensAt r.id q = u.opensAt r.id q := by
  have hbackoff : backoffForAttempts d.deliveryAttempt r.minRetryBackoffSecs
      r.maxRetryBackoffSecs =
      pushBackoffMs d.deliveryAttempt r.minRetryBackoffSecs r.maxRetryBackoffSecs :=
    backoffForAttempts_eq _ _ hbound.maxBackoff.2
  have hpos : 0 < Dispatcher.deadlineSecs
      (pushBackoffMs d.deliveryAttempt r.minRetryBackoffSecs r.maxRetryBackoffSecs) := by
    rw [deadlineSecs_eq (pushBackoffMs_le _ hbound.minBackoff.2 hbound.maxBackoff.2)]
    omega
  have h := ensures_streamModify_opensAt streamId d.ackId hpos hu hmod
  have hdeliver : Ensures (Dispatcher.deliverOne false streamId r.id (.ofDelivered true d)
      r.minRetryBackoffSecs r.maxRetryBackoffSecs t) s
      (fun _ v => ∀ q, v.opensAt r.id q = u.opensAt r.id q) (fun _ _ => False) := by
    simp only [Dispatcher.deliverOne, Bool.false_eq_true, if_false, PulledMessage.ofDelivered,
      if_true, hbackoff, ensures_ignore]
    exact h.mono (fun _ v hv => hv) (fun _ _ hf => hf.elim)
  obtain ⟨_, v, hv, hopen⟩ := hdeliver.returns
  exact ⟨v, hv, hopen⟩

end Deliver

section Pushed

variable {r : SubscriptionRecord} {d : Delivered} {t : Int}

/-- When the wait that a failed push leaves is the backoff: its ack id still names the
lease and the backoff is counted once, or the message waits that long anyway. -/
def WaitsBackoff (s : Engine) (r : SubscriptionRecord) (d : Delivered) (t : Int) : Prop :=
  let b := pushBackoffMs d.deliveryAttempt r.minRetryBackoffSecs r.maxRetryBackoffSecs
  (s.leases.Names d.ackId r.id d.seq ∧ (r.retryPolicyExplicit = false ∨ b < 2000)) ∨
    ¬ s.leases.Names d.ackId r.id d.seq ∧
      ∃ e, s.opensAt r.id d.seq = some e ∧ t + b ≤ e ∧ e ≤ t + b + 1000

/-- In every reachable state, whatever the retry policy and the attempt, a failed push
makes its message wait the backoff, up to a second, exactly when the policy is the default
or the backoff is below two seconds; a push whose lease was lost meanwhile changes
nothing. -/
theorem push_retry_waits_iff (is : List Input)
    (hr : (Run.final step start is).kv.subs.get r.id = some r) (streamId : Nat)
    (hid : d.ackId = encodeAckId r.id d.seq d.deliveryAttempt) (hsub : r.id < 2 ^ 64)
    (hseq : d.seq < 2 ^ 64) (hk : d.deliveryAttempt ≤ u32Max) (hlo : i64Min ≤ t)
    (hhi : t + 1200000 ≤ i64Max) :
    ∃ u, Dispatcher.deliverOne false streamId r.id (.ofDelivered true d) r.minRetryBackoffSecs
        r.maxRetryBackoffSecs t (Run.final step start is) = .ok () u ∧
      (RetriesAt u r.id d.seq
          (t + pushBackoffMs d.deliveryAttempt r.minRetryBackoffSecs r.maxRetryBackoffSecs) ↔
        WaitsBackoff (Run.final step start is) r d t) := by
  have hwf := wellFormed_final is
  have hnum := allNumbered_final is
  have hbound := retryBounded_final is hr
  generalize Run.final step start is = s at *
  have hdecode : decodeAckId d.ackId = some (r.id, d.seq, d.deliveryAttempt) := by
    have hk' : d.deliveryAttempt < 2 ^ 64 := by
      simp only [u32Max] at hk
      omega
    rw [hid, decodeAckId_encodeAckId, Nat.mod_eq_of_lt hsub, Nat.mod_eq_of_lt hseq,
      Nat.mod_eq_of_lt hk']
  unfold WaitsBackoff
  by_cases hnames : s.leases.Names d.ackId r.id d.seq
  · obtain ⟨l, hl, hgen⟩ := hnames
    have hname : s.leases.Names d.ackId r.id d.seq := ⟨l, hl, hgen⟩
    have hatt : l.attempts = d.deliveryAttempt := by
      have hgl : l.generation = l.attempts := by
        refine (hnum r.id d.seq).lease l.record ?_
        simp only [Engine.slot, hl, Option.map_some]
      rw [hdecode, Option.some.injEq, Prod.mk.injEq, Prod.mk.injEq] at hgen
      rw [← hgl, hgen.2.2]
    obtain ⟨v, hv, hopen⟩ := deliverOne_failed_opensAt hbound streamId
      (nacked_wellFormed hwf hl _).kv (modifyAckDeadline_named hwf.healthy hwf.coherent hl hgen _)
    refine ⟨v, hv, ?_⟩
    have hwait := @failed_opensAt s r.id d.seq t r hr hbound l hlo hhi
    rw [hatt] at hwait
    simp only at hwait
    rw [retriesAt_iff, hopen, hwait]
    simp only [hname, true_and, not_true_eq_false, false_and, or_false, Option.some.injEq,
      exists_eq_left']
    cases hexp : r.retryPolicyExplicit with
    | false =>
      obtain ⟨hmin, hmax⟩ := hbound.defaults hexp
      have hdefault := pushBackoffMs_default d.deliveryAttempt
      rw [hmin, hmax]
      simp only [Bool.false_eq_true, if_false, true_or, iff_true]
      omega
    | true =>
      simp only [if_true, Bool.true_eq_false, false_or]
      omega
  · have hno : ∀ i q, ¬ s.leases.Names d.ackId i q := by
      rintro i q ⟨l, hl, hgen⟩
      have hkey := hgen
      rw [hdecode, Option.some.injEq, Prod.mk.injEq, Prod.mk.injEq] at hkey
      rw [← hkey.1, ← hkey.2.1] at hl hgen
      exact hnames ⟨l, hl, hgen⟩
    obtain ⟨v, hv, hopen⟩ := deliverOne_failed_opensAt hbound streamId hwf.kv
      (modifyAckDeadline_unnamed hno _)
    refine ⟨v, hv, ?_⟩
    rw [retriesAt_iff, hopen]
    simp only [hnames, false_and, not_false_eq_true, true_and, false_or]

def pushTo : PushConfig := ⟨"http://localhost:8080/push", false, false⟩

/-- The stream of the dispatcher, which leases the message. -/
def pushStream (opts : CreateSubscriptionOptions) : List Input := setup opts ++ [openStreamA 1 0]

def leasedPush (opts : CreateSubscriptionOptions) : Transition :=
  firstOf (pushStream opts) ⟨0, .leaseForStream 1⟩

def pushedRecord (opts : CreateSubscriptionOptions) : Option SubscriptionRecord :=
  (Run.final step start (pushStream opts ++ [⟨0, .leaseForStream 1⟩])).kv.subs.get 2

/-- By default the message waits ten seconds after its first push. -/
theorem push_retry_waits_default : ∃ (r : SubscriptionRecord) (d : Delivered) (u : Engine),
    Dispatcher.deliverOne false 1 2 (.ofDelivered true d) r.minRetryBackoffSecs
        r.maxRetryBackoffSecs 0 (Run.final step start (pushStream { pushConfig := some pushTo } ++
          [⟨0, .leaseForStream 1⟩])) = .ok () u ∧ RetriesAt u 2 1 10000 := by
  have hrecord : (pushedRecord { pushConfig := some pushTo }).any
      (fun r => decide (r.id = 2 ∧ r.retryPolicyExplicit = false ∧ r.minRetryBackoffSecs = 10 ∧
        r.maxRetryBackoffSecs = 600)) = true := by
    decide +kernel
  have hleased : (deliveryOf (leasedPush { pushConfig := some pushTo }) 2 1).any
      (fun d => decide (d.ackId = encodeAckId 2 1 1 ∧ d.seq = 1 ∧ d.deliveryAttempt = 1)) =
      true := by
    decide +kernel
  have hnames : (Run.final step start (pushStream { pushConfig := some pushTo } ++
      [⟨0, .leaseForStream 1⟩])).leases.Names (encodeAckId 2 1 1) 2 1 := by
    decide +kernel
  cases hr : pushedRecord { pushConfig := some pushTo } with
  | none =>
    rw [hr] at hrecord
    cases hrecord
  | some r =>
    cases hd : deliveryOf (leasedPush { pushConfig := some pushTo }) 2 1 with
    | none =>
      rw [hd] at hleased
      cases hleased
    | some d =>
      simp only [hr, Option.any_some, decide_eq_true_eq] at hrecord
      simp only [hd, Option.any_some, decide_eq_true_eq] at hleased
      obtain ⟨hid, hexp, hmin, hmax⟩ := hrecord
      obtain ⟨hack, hseq, hatt⟩ := hleased
      have hstored := hr
      rw [pushedRecord, ← hid] at hstored
      obtain ⟨u, hu, hiff⟩ := @push_retry_waits_iff r d 0 _ hstored 1
        (by rw [hack, hid, hseq, hatt]) (by rw [hid]; decide) (by rw [hseq]; decide)
        (by rw [hatt]; decide) (by decide) (by decide)
      have hwaits := hiff.mpr (Or.inl ⟨by rw [hack, hid, hseq]; exact hnames, Or.inl hexp⟩)
      have hb : pushBackoffMs 1 10 600 = 10000 := by decide
      rw [hid, hseq, hatt, hmin, hmax, hb] at hwaits
      rw [hid] at hu
      exact ⟨r, d, u, hu, by simpa using hwaits⟩

/-- What the first failed push of the message leaves. -/
def afterFailedPush (opts : CreateSubscriptionOptions) :
    Option (SubscriptionRecord × Delivered × Engine) :=
  match pushedRecord opts, deliveryOf (leasedPush opts) 2 1 with
  | some r, some d =>
    match Dispatcher.deliverOne false 1 2 (.ofDelivered true d) r.minRetryBackoffSecs
        r.maxRetryBackoffSecs 0 (leasedPush opts).post with
    | .ok _ u => some (r, d, u)
    | .error _ _ => none
  | _, _ => none

theorem afterFailedPush_eq {opts : CreateSubscriptionOptions} {u : Engine}
    (h : afterFailedPush opts = some (r, d, u)) :
    pushedRecord opts = some r ∧ deliveryOf (leasedPush opts) 2 1 = some d ∧
      Dispatcher.deliverOne false 1 2 (.ofDelivered true d) r.minRetryBackoffSecs
        r.maxRetryBackoffSecs 0 (leasedPush opts).post = .ok () u := by
  unfold afterFailedPush at h
  cases hr : pushedRecord opts with
  | none =>
    rw [hr] at h
    cases h
  | some r' =>
    cases hd : deliveryOf (leasedPush opts) 2 1 with
    | none =>
      rw [hr, hd] at h
      cases h
    | some d' =>
      simp only [hr, hd] at h
      cases hrun : Dispatcher.deliverOne false 1 2 (.ofDelivered true d') r'.minRetryBackoffSecs
          r'.maxRetryBackoffSecs 0 (leasedPush opts).post with
      | error e u' =>
        rw [hrun] at h
        cases h
      | ok _ u' =>
        simp only [hrun, Option.some.injEq, Prod.mk.injEq] at h
        obtain ⟨rfl, rfl, rfl⟩ := h
        exact ⟨rfl, rfl, hrun⟩

/-- A backoff of ten seconds that is set explicitly is waited for twice. -/
theorem push_retry_waits_twice :
    ¬ ∀ (is : List Input) (r : SubscriptionRecord) (streamId : Nat) (d : Delivered) (t : Int),
      (Run.final step start is).kv.subs.get r.id = some r → r.pushConfig ≠ none →
      (∃ tr ∈ history is, tr.input.op = .leaseForStream streamId ∧ Delivers tr r.id d.seq d) →
      ∃ u, Dispatcher.deliverOne false streamId r.id (.ofDelivered true d) r.minRetryBackoffSecs
          r.maxRetryBackoffSecs t (Run.final step start is) = .ok () u ∧
        RetriesAt u r.id d.seq
          (t + pushBackoffMs d.deliveryAttempt r.minRetryBackoffSecs r.maxRetryBackoffSecs) := by
  intro h
  have hafter : (match afterFailedPush
        { pushConfig := some pushTo, minRetryBackoffSecs := some 10 } with
      | none => false
      | some (r, d, u) => decide (r.id = 2 ∧ r.pushConfig ≠ none ∧ r.minRetryBackoffSecs = 10 ∧
          r.maxRetryBackoffSecs = 600 ∧ d.seq = 1 ∧ d.deliveryAttempt = 1 ∧
          u.gated 11000 2 1 = true)) = true := by
    decide +kernel
  generalize ({ pushConfig := some pushTo, minRetryBackoffSecs := some 10 } :
    CreateSubscriptionOptions) = opts at hafter
  cases hf : afterFailedPush opts with
  | none =>
    rw [hf] at hafter
    cases hafter
  | some x =>
    obtain ⟨r, d, u⟩ := x
    simp only [hf, decide_eq_true_eq] at hafter
    obtain ⟨hid, hpush, hmin, hmax, hseq, hatt, hgated⟩ := hafter
    obtain ⟨hr, hd, hrun⟩ := afterFailedPush_eq hf
    have hmem := @Run.mem_trace_append _ _ _ step start (pushStream opts) ⟨0, .leaseForStream 1⟩
    have hdelivers := delivers_of_deliveryOf hd
    have hpost : Run.final step start (pushStream opts ++ [⟨0, .leaseForStream 1⟩]) =
        (leasedPush opts).post := by
      rw [Run.final_append]
      rfl
    rw [pushedRecord, hpost, ← hid] at hr
    rw [← hid, ← hseq] at hdelivers
    have hclaim := h _ r 1 d 0 (hpost ▸ hr) hpush ⟨_, hmem, rfl, hdelivers⟩
    rw [hpost, hid, hrun] at hclaim
    obtain ⟨v, hv, hretries⟩ := hclaim
    cases hv
    have hb : pushBackoffMs 1 10 600 = 10000 := by decide
    have hopen := hretries.opened 11000 (by rw [hatt, hmin, hmax, hb]; decide)
    rw [hseq, hgated] at hopen
    cases hopen

end Pushed

end OpenPubusb
