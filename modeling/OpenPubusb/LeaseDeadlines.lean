import OpenPubusb.Isolation
import OpenPubusb.PolicyFields
import OpenPubusb.StreamSteps

/-! How far ahead the deadlines of leases and of their rows lie. Deadlines are
written by lease calls, with the seconds of the subscription or of the stream, by
deadline changes, with the seconds of the request, and by sweeps. -/

namespace OpenPubusb

open Hoare

section Bounds

theorem satI64_le {x : Int} (h : i64Min ≤ x) : satI64 x ≤ x :=
  max_le h (min_le_right _ _)

theorem wrapI64_le {x : Int} (h : i64Min ≤ x) : wrapI64 x ≤ x := by
  have hlo : -9223372036854775808 ≤ x := h
  have hmod : wrapI64 x = Int.bmod x 18446744073709551616 := rfl
  rw [hmod, Int.bmod_def]
  omega

variable {now secs : Int}

theorem grantedDeadline_le (hnow : i64Min ≤ now) (h : secs ≤ maxAckDeadlineSecs) :
    satAddI64 now (max secs 0 * 1000) ≤ now + maxAckDeadlineSecs * 1000 := by
  have hmax : max secs 0 ≤ maxAckDeadlineSecs := max_le h (by decide)
  have hpos : 0 ≤ max secs 0 := le_max_right _ _
  have hle : satAddI64 now (max secs 0 * 1000) ≤ now + max secs 0 * 1000 :=
    satI64_le (by omega)
  omega

theorem extendedDeadline_le (hnow : i64Min ≤ now) (h : secs ≤ maxAckDeadlineSecs) :
    LeaseTable.extendedDeadline now secs ≤ now + maxAckDeadlineSecs * 1000 := by
  have hmax : maxAckDeadlineSecs = 600 := rfl
  unfold LeaseTable.extendedDeadline
  split_ifs with hneg
  · omega
  · have hle : wrapI64 (now + secs * 1000) ≤ now + secs * 1000 := wrapI64_le (by omega)
    omega

end Bounds

section Modify

variable {s : Engine}

/-- Whatever its ids name, a deadline change that does something sets the deadline
`d`. -/
structure Redated (ackIds : List String) (d : Int) (s t : Engine) : Prop where
  leases : ∀ i q l, t.leases.get i q = some l →
    s.leases.get i q = some l ∨ l.deadlineMs = d ∧ ∃ j p, Hit s.leases ackIds j p
  dlv : ∀ k r, t.kv.dlv.get k = some r →
    s.kv.dlv.get k = some r ∨ r.deadlineMs = d ∧ ∃ j p, Hit s.leases ackIds j p

theorem ensures_modify_redated {subId : Nat} (ackIds : List String) (nowMs seconds : Int)
    (hh : s.kv.Healthy) (E : Error → Engine → Prop) :
    Ensures (modifyAckDeadline subId ackIds nowMs seconds) s
      (fun _ t => Redated ackIds (LeaseTable.extendedDeadline nowMs seconds) s t) E := by
  induction ackIds generalizing s with
  | nil => exact ⟨fun _ _ _ h => Or.inl h, fun _ _ h => Or.inl h⟩
  | cons ackId ackIds ih =>
    simp only [modifyAckDeadline, setLeases, ensures_bind, ensures_get, ensures_modify]
    rcases s.leases.resolveAck_cases ackId
      (fun i q l => (s.leases.reschedule i q l (LeaseTable.extendedDeadline nowMs seconds),
        .applied { l with deadlineMs := LeaseTable.extendedDeadline nowMs seconds })) with
      ⟨i, q, l, hl, hd, he⟩ | ⟨hno, he, hout⟩
    · have hext : s.leases.extend ackId nowMs seconds =
          (s.leases.reschedule i q l (LeaseTable.extendedDeadline nowMs seconds),
            .applied { l with deadlineMs := LeaseTable.extendedDeadline nowMs seconds }) := he
      have hhit : ∃ j p, Hit s.leases (ackId :: ackIds) j p :=
        ⟨i, q, ackId, List.mem_cons_self, l, hl, hd⟩
      simp only [hext, ensures_bind, ensures_onKv, putDlv, ensures_kvWrite_healthy hh]
      refine (@ih { s with
        leases := s.leases.reschedule i q l (LeaseTable.extendedDeadline nowMs seconds)
        kv := { s.kv.tick with
          dlv := s.kv.dlv.insert ⟨subId, l.seq⟩
            ⟨LeaseTable.extendedDeadline nowMs seconds, l.attempts, l.generation⟩ } }
        fun n => hh n).mono (fun _ t h => ⟨fun j p x hx => ?_, fun k r hr => ?_⟩)
        (fun _ _ h => h)
      · rcases h.leases j p x hx with hlease | hset
        · rw [LeaseTable.get_reschedule] at hlease
          split_ifs at hlease with hk
          · cases hlease
            exact Or.inr ⟨rfl, hhit⟩
          · exact Or.inl hlease
        · exact Or.inr ⟨hset.1, hhit⟩
      · rcases h.dlv k r hr with hrow | hset
        · simp only [SortedMap.get_insert] at hrow
          split_ifs at hrow with hk
          · cases hrow
            exact Or.inr ⟨rfl, hhit⟩
          · exact Or.inl hrow
        · exact Or.inr ⟨hset.1, hhit⟩
    · have hext : (s.leases.extend ackId nowMs seconds).1 = s.leases := he
      have hcons : (∃ j p, Hit s.leases ackIds j p) → ∃ j p, Hit s.leases (ackId :: ackIds) j p :=
        fun h => h.imp fun _ hj => hj.imp fun _ hp =>
          hp.imp fun _ hx => ⟨List.mem_cons_of_mem _ hx.1, hx.2⟩
      rw [hext]
      have hskip : Ensures (modifyAckDeadline subId ackIds nowMs seconds) s
          (fun _ t => Redated (ackId :: ackIds) (LeaseTable.extendedDeadline nowMs seconds) s t)
          E := by
        refine (ih hh).mono (fun _ t h => ⟨fun j p x hx => ?_, fun k r hr => ?_⟩) (fun _ _ h => h)
        · exact (h.leases j p x hx).imp id fun hset => ⟨hset.1, hcons hset.2⟩
        · exact (h.dlv k r hr).imp id fun hset => ⟨hset.1, hcons hset.2⟩
      cases ho : (s.leases.extend ackId nowMs seconds).2 with
      | applied l => exact absurd ho (hout l)
      | _ => exact hskip

theorem step_modify_redated {i : Input} (hwf : s.WellFormed) {subId : Nat} {ackIds : List String}
    {seconds : Int} (hcall : modifyCall s.kv i.op = some (subId, ackIds, seconds)) :
    Redated ackIds (LeaseTable.extendedDeadline i.nowMs seconds) s (step s i).2 := by
  refine ensures_step (ensures_perform_modify hwf hcall
    (fun E => ensures_modify_redated ackIds i.nowMs seconds hwf.healthy E) fun t u h hl hd _ => ?_)
  refine ⟨?_, ?_⟩
  · rw [hl]
    exact h.leases
  · rw [hd]
    exact h.dlv

end Modify

section Steps

variable {s : Engine} {i : Input} {reply : Reply} {t : Engine} {subId seq : Nat} {e : Effect}

/-- A lease or a row is what it was before the step, or its deadline is at most the
longest ack deadline away; a restart reads the leases from the rows. -/
structure SetWithin (i : Input) (x x' : Slot) : Prop where
  lease : i.op ≠ .restart → ∀ r, x'.lease = some r →
    x.lease = some r ∨ r.deadlineMs ≤ i.nowMs + maxAckDeadlineSecs * 1000
  recovered : i.op = .restart → x'.lease = x.row
  row : ∀ r, x'.row = some r →
    x.row = some r ∨ r.deadlineMs ≤ i.nowMs + maxAckDeadlineSecs * 1000

/-- The seconds of the requests stay within the longest ack deadline: those of a
deadline change that finds a lease, and those of a stream. -/
structure BoundsDeadlines (s : Engine) (i : Input) : Prop where
  clock : i64Min ≤ i.nowMs
  modify : ∀ j ackIds seconds, modifyCall s.kv i.op = some (j, ackIds, seconds) →
    ∀ k q, Hit s.leases ackIds k q → seconds ≤ maxAckDeadlineSecs
  opened : ∀ name secs messages bytes, i.op = .openStream name secs messages bytes →
    secs ≤ maxAckDeadlineSecs
  updated : ∀ sid secs messages bytes, i.op = .updateStream sid (some secs) messages bytes →
    secs ≤ maxAckDeadlineSecs

theorem SlotStep.setWithin (h : SlotStep s i reply t subId seq e) (hop : i.op ≠ .restart)
    (hc : BoundsDeadlines s i)
    (hcall : ∀ secs, leaseCall s i.op = some (subId, secs) → secs ≤ maxAckDeadlineSecs) :
    SetWithin i (s.slot subId seq) (t.slot subId seq) := by
  have hcause := h.cause
  have hen := h.enabled
  have hmax : (0 : Int) ≤ maxAckDeadlineSecs * 1000 := by decide
  refine ⟨fun _ => ?_, fun hr => absurd hr hop, ?_⟩
  all_goals
    intro x hx
    rw [h.slot] at hx
  · cases e with
    | granted r =>
      obtain ⟨secs, hl, hd, _⟩ := hcause
      cases hx
      right
      rw [hd]
      exact grantedDeadline_le hc.clock (hcall secs hl)
    | modified d =>
      obtain ⟨ackIds, seconds, hm, hhit, hd⟩ := hcause
      obtain ⟨l, _, rfl⟩ := Option.map_eq_some_iff.mp hx
      right
      rw [hd]
      exact extendedDeadline_le hc.clock (hc.modify _ _ _ hm _ _ hhit)
    | postponed limit now =>
      obtain ⟨rfl, _⟩ := hen
      obtain ⟨l, _, rfl⟩ := Option.map_eq_some_iff.mp hx
      right
      simp only
      omega
    | recovered => exact absurd hcause hop
    | idle => exact Or.inl hx
    | retired dropped => exact Or.inl hx
    | marked => exact Or.inl hx
    | attached pending => exact Or.inl hx
    | _ => cases hx
  · cases e with
    | granted r =>
      obtain ⟨secs, hl, hd, _⟩ := hcause
      cases hx
      right
      rw [hd]
      exact grantedDeadline_le hc.clock (hcall secs hl)
    | modified d =>
      obtain ⟨ackIds, seconds, hm, hhit, hd⟩ := hcause
      obtain ⟨l, _, rfl⟩ := Option.map_eq_some_iff.mp hx
      right
      rw [hd]
      exact extendedDeadline_le hc.clock (hc.modify _ _ _ hm _ _ hhit)
    | retired dropped =>
      cases dropped with
      | true => cases hx
      | false => exact Or.inl hx
    | idle => exact Or.inl hx
    | postponed limit now => exact Or.inl hx
    | recovered => exact Or.inl hx
    | attached pending => exact Or.inl hx
    | stolen => exact Or.inl hx
    | dropped limit => exact Or.inl hx
    | _ => cases hx

theorem Redated.setWithin {ackIds : List String} {seconds : Int} (hop : i.op ≠ .restart)
    (hnow : i64Min ≤ i.nowMs)
    (h : Redated ackIds (LeaseTable.extendedDeadline i.nowMs seconds) s t)
    (hsecs : ∀ k q, Hit s.leases ackIds k q → seconds ≤ maxAckDeadlineSecs) (subId seq : Nat) :
    SetWithin i (s.slot subId seq) (t.slot subId seq) := by
  refine ⟨fun _ r hr => ?_, fun hr => absurd hr hop, fun r hr => ?_⟩
  · obtain ⟨l, hl, rfl⟩ := Option.map_eq_some_iff.mp hr
    rcases h.leases subId seq l hl with hold | ⟨hd, k, q, hhit⟩
    · left
      simp only [Engine.slot, hold, Option.map_some]
    · right
      have hle := extendedDeadline_le hnow (hsecs k q hhit)
      rwa [← hd] at hle
  · rcases h.dlv _ r hr with hold | ⟨hd, k, q, hhit⟩
    · exact Or.inl hold
    · right
      rw [hd]
      exact extendedDeadline_le hnow (hsecs k q hhit)

theorem setWithin_restart (hop : i.op = .restart) :
    SetWithin i (s.slot subId seq) ((step s i).2.slot subId seq) := by
  have hstep : (step s i).2 = .boot s.kv s.deadLettered := by
    unfold step
    rw [hop]
    rfl
  rw [hstep]
  refine ⟨fun hn => absurd hop hn, fun _ => ?_, fun r hr => Or.inl hr⟩
  simp only [Engine.slot, Engine.boot, Engine.new, get_recoveredLeases]
  cases s.kv.dlv.get ⟨subId, seq⟩ <;> rfl

theorem step_setWithin (hwf : s.WellFormed) (hc : BoundsDeadlines s i)
    (hcall : ∀ secs, leaseCall s i.op = some (subId, secs) → secs ≤ maxAckDeadlineSecs) :
    SetWithin i (s.slot subId seq) ((step s i).2.slot subId seq) := by
  by_cases hop : i.op = .restart
  · exact setWithin_restart hop
  cases hm : modifyCall s.kv i.op with
  | none =>
    have hown : NoForeignModify s i.op := fun _ _ _ h => by
      rw [hm] at h
      cases h
    obtain ⟨e, he⟩ := (step_refines hwf hown).slots subId seq
    exact he.setWithin hop hc hcall
  | some c =>
    obtain ⟨j, ackIds, seconds⟩ := c
    exact (step_modify_redated hwf hm).setWithin hop hc.clock (hc.modify _ _ _ hm) subId seq

end Steps

section Runs

/-- When the lease and the row of a message were last set. -/
structure SetTimes where
  lease : Int
  row : Int

/-- The times after `tr`, when they were `x` before: a lease that a restart reads back
was set when its row was. -/
def setAfter (subId seq : Nat) (x : SetTimes) (tr : Transition) : SetTimes where
  lease :=
    match tr.input.op with
    | .restart => x.row
    | _ => if (tr.post.slot subId seq).lease = (tr.pre.slot subId seq).lease then x.lease
      else tr.input.nowMs
  row := if (tr.post.slot subId seq).row = (tr.pre.slot subId seq).row then x.row
    else tr.input.nowMs

def setTimes (trs : List Transition) (subId seq : Nat) : SetTimes :=
  trs.foldl (setAfter subId seq) ⟨0, 0⟩

/-- The slot's deadlines are at most the longest ack deadline after their times. -/
structure Slot.Within (x : Slot) (times : SetTimes) : Prop where
  lease : ∀ r, x.lease = some r → r.deadlineMs ≤ times.lease + maxAckDeadlineSecs * 1000
  row : ∀ r, x.row = some r → r.deadlineMs ≤ times.row + maxAckDeadlineSecs * 1000

theorem SetWithin.within (tr : Transition) {subId seq : Nat} {x : SetTimes}
    (h : SetWithin tr.input (tr.pre.slot subId seq) (tr.post.slot subId seq))
    (hx : (tr.pre.slot subId seq).Within x) :
    (tr.post.slot subId seq).Within (setAfter subId seq x tr) := by
  refine ⟨fun r hr => ?_, fun r hr => ?_⟩
  · by_cases hop : tr.input.op = .restart
    · have hset : (setAfter subId seq x tr).lease = x.row := by
        simp only [setAfter, hop]
      rw [hset]
      exact hx.row r ((h.recovered hop) ▸ hr)
    · have hset : (setAfter subId seq x tr).lease =
          if (tr.post.slot subId seq).lease = (tr.pre.slot subId seq).lease then x.lease
          else tr.input.nowMs := by
        unfold setAfter
        cases hi : tr.input.op with
        | restart => exact absurd hi hop
        | _ => rfl
      rw [hset]
      rcases h.lease hop r hr with hold | hle
      · rw [hr, hold, if_pos rfl]
        exact hx.lease r hold
      · split_ifs with heq
        · exact hx.lease r (heq ▸ hr)
        · exact hle
  · simp only [setAfter]
    rcases h.row r hr with hold | hle
    · rw [hr, hold, if_pos rfl]
      exact hx.row r hold
    · split_ifs with heq
      · exact hx.row r (heq ▸ hr)
      · exact hle

/-- The ack deadlines that lease calls use stay within the longest one. -/
structure Paced (s : Engine) : Prop where
  wf : s.WellFormed
  consistent : Consistent s.kv
  record : ∀ {id r}, s.kv.subs.get id = some r → r.ackDeadlineSecs ≤ maxAckDeadlineSecs
  session : ∀ {sid st}, s.streams.sessions.get sid = some st →
    st.info.ackDeadlineSecs ≤ maxAckDeadlineSecs

theorem paced_start : Paced start where
  wf := wellFormed_start
  consistent := consistent_empty
  record h := by cases h
  session h := by cases h

theorem Paced.leaseCall {s : Engine} (h : Paced s) {op : Op} {subId : Nat} {secs : Int}
    (hcall : OpenPubusb.leaseCall s op = some (subId, secs)) : secs ≤ maxAckDeadlineSecs := by
  cases op with
  | pull name n =>
    simp only [OpenPubusb.leaseCall] at hcall
    cases hg : SubscriptionStore.get s.kv name with
    | ok r =>
      simp only [hg, Option.some.injEq, Prod.mk.injEq] at hcall
      obtain ⟨id, _, hr⟩ := get_eq_ok hg
      rw [← hcall.2]
      exact h.record hr
    | error e =>
      simp only [hg] at hcall
      cases hcall
  | leaseForStream sid =>
    obtain ⟨info, hinfo, heq⟩ := Option.map_eq_some_iff.mp hcall
    obtain ⟨st, hst, rfl⟩ := Option.map_eq_some_iff.mp hinfo
    cases heq
    exact h.session hst
  | _ => cases hcall

theorem Paced.step {s : Engine} (h : Paced s) {i : Input} (hc : BoundsDeadlines s i) :
    Paced (OpenPubusb.step s i).2 := by
  have hev := (step_path i h.consistent h.wf.healthy).evolves h.consistent
  refine ⟨wellFormed_step h.wf i, hev.consistent, fun {id r'} hr' => ?_, fun {sid st'} hst' => ?_⟩
  · cases step_record h.consistent h.wf.healthy i hr' with
    | @rewritten r _ hr hw =>
      have hold := h.record hr
      generalize i.op = op at hw
      cases hw with
      | update _ patch hpatch =>
        cases hv : patch.ackDeadlineSecs with
        | none =>
          simp only [SubscriptionStore.patched, hv, Option.getD_none]
          exact hold
        | some v =>
          simp only [SubscriptionStore.patched, hv, Option.getD_some]
          exact (validateRange_eq_ok.mp ((checkPatch_eq_ok hpatch).1 v hv)).2
      | _ => exact hold
    | orphaned hop hr =>
      have hold := h.record hr
      exact hold
    | created hop hopts => exact (validateRange_eq_ok.mp (checkOptions_eq_ok hopts).1).2
  · cases sessionStep h.wf hst' with
    | opened _ _ _ hsecs =>
      obtain ⟨name, messages, bytes, hop⟩ := hsecs
      exact hc.opened _ _ _ _ hop
    | kept st hst _ _ _ _ _ hsecs =>
      rcases hsecs with hsame | ⟨messages, bytes, hop⟩
      · rw [hsame]
        exact h.session hst
      · exact hc.updated _ _ _ _ hop
    | leased st hst ds _ _ hst₁ =>
      rw [hst₁, leasedAll_info]
      exact h.session hst
    | resolved st hst ackIds _ _ hst₁ =>
      rw [hst₁, resolvedAll_info]
      exact h.session hst

/-- Along a run whose requests stay within the longest ack deadline, no lease and no
row is due later than that after it was last set. -/
theorem deadlines_within (is : List Input)
    (h : ∀ tr ∈ history is, BoundsDeadlines tr.pre tr.input) (subId seq : Nat) :
    ((Run.final step start is).slot subId seq).Within (setTimes (history is) subId seq) := by
  have hinv : Paced (Run.final step start is) ∧
      ((Run.final step start is).slot subId seq).Within (setTimes (history is) subId seq) := by
    refine Run.observe_inv (C := fun tr : Transition => BoundsDeadlines tr.pre tr.input)
      (P := fun x s => Paced s ∧ (s.slot subId seq).Within x) (fun x s i hp hc => ?_)
      ⟨paced_start, nofun, nofun⟩ h
    have hset : SetWithin i (s.slot subId seq) ((OpenPubusb.step s i).2.slot subId seq) :=
      step_setWithin hp.1.wf hc fun _ hcall => hp.1.leaseCall hcall
    exact ⟨hp.1.step hc, SetWithin.within (Run.transition OpenPubusb.step s i) hset hp.2⟩
  exact hinv.2

/-- A message is pulled, and its deadline is moved at time `7`. -/
def extendRun (seconds : Int) : List Input :=
  setup {} ++ [pullA 5,
    ⟨7, .modifyAckDeadline "projects/p/subscriptions/subA" [encodeAckId 2 1 1] seconds⟩]

theorem deadlines_within_extended :
    ((Run.final step start (extendRun 600)).slot 2 1).lease = some ⟨600007, 1, 1⟩ ∧
      ((Run.final step start (extendRun 600)).slot 2 1).Within
        (setTimes (history (extendRun 600)) 2 1) := by
  refine ⟨by decide +kernel, deadlines_within (extendRun 600) ?_ 2 1⟩
  refine Run.forall_trace_of_inputs fun i hi s => ?_
  simp only [extendRun, setup, pullA, List.cons_append, List.nil_append, List.mem_cons,
    List.not_mem_nil, or_false] at hi
  have hclock : i64Min ≤ i.nowMs := by
    rcases hi with rfl | rfl | rfl | rfl | rfl | rfl
    all_goals decide
  rcases hi with rfl | rfl | rfl | rfl | rfl | rfl
  all_goals
    refine ⟨hclock, fun j ackIds seconds hm k q _ => ?_, fun _ _ _ _ h => ?_, fun _ _ _ _ h => ?_⟩
    on_goal 2 => cases h
    on_goal 2 => cases h
  · cases hm
  · cases hm
  · cases hm
  · cases hm
  · cases hm
  · obtain ⟨_, _, heq⟩ := Option.map_eq_some_iff.mp hm
    cases heq
    decide

/-- The longest time a request can ask for hides the message for 24 days. -/
theorem deadline_beyond : ¬ ∀ (is : List Input) (subId seq : Nat),
    ((Run.final step start is).slot subId seq).Within (setTimes (history is) subId seq) := by
  intro h
  have hslot : ((Run.final step start (extendRun 2147483647)).slot 2 1).lease =
      some ⟨2147483647007, 1, 1⟩ := by
    decide +kernel
  have htime : (setTimes (history (extendRun 2147483647)) 2 1).lease = 7 := by
    decide +kernel
  have hle := (h (extendRun 2147483647) 2 1).lease _ hslot
  rw [htime] at hle
  revert hle
  decide

end Runs

end OpenPubusb
