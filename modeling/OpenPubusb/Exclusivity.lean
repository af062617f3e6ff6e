import OpenPubusb.Deliveries

/-! A delivered message is not delivered again before its ack deadline, nor
before the backoff of an explicit retry policy. The lease in memory, the row and
the clock bear this together: a row whose lease was dropped is past due. -/

namespace OpenPubusb

def deadlineAfter (subId seq : Nat) (d : Int) (tr : Transition) : Int :=
  match modifyCall tr.pre.kv tr.input.op with
  | some (i, ackIds, seconds) =>
    if i = subId ∧ Hit tr.pre.leases ackIds subId seq then
      LeaseTable.extendedDeadline tr.input.nowMs seconds
    else d
  | none => d

/-- The deadline in force after the transitions of `trs`. -/
def deadlineInForce (subId seq : Nat) (d : Int) (trs : List Transition) : Int :=
  trs.foldl (deadlineAfter subId seq) d

/-- The operations that exclusivity is about: no stream is closed, no
subscription is moved, no sweep looks into the future. -/
def Op.steady : Op → Bool
  | .closeStream _ => false
  | .seekToSnapshot _ _ => false
  | .seekToTime _ _ => false
  | .sweepSubscription _ graceMs => 0 ≤ graceMs
  | _ => true

/-- The slot of a message delivered with deadline `d` as attempt `n`, when
nothing is known about the clock but that it has not passed `now`. -/
def Slot.Held (x : Slot) (d : Int) (n : Nat) (now : Int) : Prop :=
  x.pending = true → ∃ r, x.row = some r ∧ d ≤ r.deadlineMs ∧ n ≤ r.attempts ∧
    (∀ l, x.lease = some l → d ≤ l.deadlineMs ∧ n ≤ l.attempts) ∧ (x.lease = none → d ≤ now)

theorem Slot.Held.due {x : Slot} {d : Int} {n : Nat} {now : Int} (h : x.Held d n now)
    (hp : x.pending = true) {policy : ReclaimPolicy} {k : Nat} (hdue : x.Due policy now k) :
    d ≤ now ∧ (policy.retryPolicyExplicit = true → policy.eligibleAt d n ≤ now) := by
  obtain ⟨r, hr, hrd, hrn, hl, hnone⟩ := h hp
  have hmono : ∀ x : DeliveryRecord, d ≤ x.deadlineMs → n ≤ x.attempts →
      policy.eligibleAt d n ≤ policy.eligibleAt x.deadlineMs x.attempts := by
    intro x hx hn
    refine satAddI64_mono hx ?_
    exact_mod_cast backoffForAttempts_mono hn _ _
  cases hlease : x.lease with
  | some l =>
    simp only [Slot.Due, hlease] at hdue
    obtain ⟨hd, hpass, _⟩ := hdue
    obtain ⟨hld, hln⟩ := hl l hlease
    exact ⟨hld.trans hd, fun he => (hmono l hld hln).trans (hpass he)⟩
  | none =>
    simp only [Slot.Due, hlease, hr] at hdue
    exact ⟨hnone hlease, fun he => (hmono r hrd hrn).trans (hdue.1 he)⟩

section Steps

variable {s : Engine} {i : Input} {reply : Reply} {t : Engine} {subId seq : Nat} {e : Effect}
  {d : Int} {n : Nat} {now : Int}

theorem SlotStep.deadlineAfter_modified (h : SlotStep s i reply t subId seq (.modified d)) (d₀ : Int) :
    deadlineAfter subId seq d₀ ⟨s, i, reply, t⟩ = d := by
  obtain ⟨ackIds, seconds, hcall, hhit, hd⟩ := h.cause
  simp only [deadlineAfter, hcall, true_and, if_pos hhit, hd]

theorem SlotStep.deadlineAfter_eq (h : SlotStep s i reply t subId seq e)
    (he : ∀ d, e ≠ .modified d) : deadlineAfter subId seq d ⟨s, i, reply, t⟩ = d := by
  cases hm : modifyCall s.kv i.op with
  | none => simp only [deadlineAfter, hm]
  | some c =>
    obtain ⟨j, ackIds, seconds⟩ := c
    simp only [deadlineAfter, hm]
    refine if_neg fun ⟨hj, hhit⟩ => ?_
    rw [hj] at hm
    exact he _ (h.modified hm hhit)

/-- What a step that delivers nothing of `(subId, seq)` does to its deadline. -/
theorem SlotStep.held (h : SlotStep s i reply t subId seq e) (hheld : (s.slot subId seq).Held d n now)
    (hknown : subId ≤ s.kv.counter) (hsteady : i.op.steady = true) (hack : NoForeignAck s i.op)
    (hfwd : ¬ Refused s i subId)
    (hnone : ∀ ds d, reply = .delivered subId ds → d ∈ ds → d.seq ≠ seq)
    (hlo : i64Min ≤ i.nowMs) (hnow : i.nowMs ≤ now) :
    (t.slot subId seq).Held (deadlineAfter subId seq d ⟨s, i, reply, t⟩) n now := by
  have hcause := h.cause
  have hen := h.enabled
  have hlimit : ∀ {j grace limit}, i.op = .sweepSubscription j grace →
      limit = satSubI64 i.nowMs grace → limit ≤ i.nowMs := fun hop hl => by
    rw [hop] at hsteady
    rw [hl]
    exact satSubI64_le hlo (by simpa [Op.steady] using hsteady)
  cases e with
  | modified d' =>
    rw [h.deadlineAfter_modified, h.slot]
    obtain ⟨l, hl⟩ := Option.ne_none_iff_exists'.mp hen
    intro hp
    obtain ⟨_, _, _, _, hlease, _⟩ := hheld hp
    refine ⟨{ l with deadlineMs := d' }, ?_, le_rfl, (hlease l hl).2, fun l' hl' => ?_, fun hn => ?_⟩
    · simp only [Effect.apply, hl, Option.map_some]
    · simp only [Effect.apply, hl, Option.map_some, Option.some.injEq] at hl'
      rw [← hl']
      exact ⟨le_rfl, (hlease l hl).2⟩
    · simp only [Effect.apply, hl, Option.map_some, reduceCtorEq] at hn
  | idle =>
    rw [h.deadlineAfter_eq (fun _ h => by cases h), h.slot]
    exact hheld
  | granted r =>
    obtain ⟨ds, x, hr, hmem, hx⟩ := h.delivered_of_granted rfl hfwd
    exact absurd hx (hnone ds x hr hmem)
  | forwarded saved =>
    rw [h.slot, h.saved_of_forwarded rfl hfwd]
    intro hp
    simp [Effect.apply] at hp
  | retired dropped =>
    rw [h.slot]
    intro hp
    cases hp
  | acked =>
    rw [h.slot]
    intro hp
    cases hp
  | marked => exact absurd rfl (h.not_marked hack)
  | stolen => exact absurd rfl (h.not_stolen hack)
  | dropped limit =>
    rw [h.deadlineAfter_eq (fun _ h => by cases h), h.slot]
    obtain ⟨l, hl, hle⟩ := hen
    obtain ⟨grace, hop, hlim⟩ := hcause
    intro hp
    obtain ⟨r, hr, hrd, hrn, hlease, _⟩ := hheld hp
    refine ⟨r, hr, hrd, hrn, fun _ h => (by cases h), fun _ => ?_⟩
    calc d ≤ l.deadlineMs := (hlease l hl).1
      _ ≤ limit := hle
      _ ≤ i.nowMs := hlimit hop hlim
      _ ≤ now := hnow
  | postponed limit due =>
    rw [h.deadlineAfter_eq (fun _ h => by cases h), h.slot]
    obtain ⟨hdue, l, hl, hle⟩ := hen
    obtain ⟨j, grace, hop, _, hlim⟩ := hcause
    intro hp
    obtain ⟨r, hr, hrd, hrn, hlease, _⟩ := hheld hp
    have hd : d ≤ due := by
      calc d ≤ l.deadlineMs := (hlease l hl).1
        _ ≤ limit := hle
        _ ≤ i.nowMs := hlimit hop hlim
        _ = due := hdue.symm
    refine ⟨r, hr, hrd, hrn, fun l' hl' => ?_, fun hn => ?_⟩
    · simp only [Effect.apply, hl, Option.map_some, Option.some.injEq] at hl'
      rw [← hl']
      exact ⟨hd, (hlease l hl).2⟩
    · simp only [Effect.apply, hl, Option.map_some, reduceCtorEq] at hn
  | released =>
    obtain ⟨sid, _, hop, _⟩ := hcause
    rw [hop] at hsteady
    cases hsteady
  | reset p =>
    obtain ⟨_, hcall, _⟩ := hcause
    cases hop : i.op <;> rw [hop] at hcall hsteady <;> first | cases hcall | cases hsteady
  | recovered =>
    rw [h.deadlineAfter_eq (fun _ h => by cases h), h.slot]
    intro hp
    obtain ⟨r, hr, hrd, hrn, _⟩ := hheld hp
    refine ⟨r, hr, hrd, hrn, fun l hl => ?_, fun hn => ?_⟩
    · have hlr : some r = some l := hr.symm.trans hl
      cases hlr
      exact ⟨hrd, hrn⟩
    · have hrn' : some r = none := hr.symm.trans hn
      cases hrn'
  | attached p => exact absurd hknown (not_le.mpr hcause)

end Steps

/-- The runs that exclusivity is about, as far as one transition shows. -/
structure Exclusivity (tr : Transition) : Prop where
  steady : tr.input.op.steady = true
  own : OwnIds tr
  clock : i64Min ≤ tr.input.nowMs

theorem held_final {s : Engine} {subId seq : Nat} {d : Int} {n : Nat} {now : Int} (is : List Input)
    (hwf : s.WellFormed) (hknown : subId ≤ s.kv.counter)
    (hheld : (s.slot subId seq).Held d n now)
    (hc : ∀ tr ∈ Run.trace step s is, Exclusivity tr ∧ Forwardable tr ∧ tr.input.nowMs ≤ now ∧
      ∀ x, ¬ Delivers tr subId seq x) :
    ((Run.final step s is).slot subId seq).Held
      (deadlineInForce subId seq d (Run.trace step s is)) n now := by
  have hstep : ∀ d s i, (s.WellFormed ∧ subId ≤ s.kv.counter ∧ (s.slot subId seq).Held d n now) →
      (Exclusivity (Run.transition step s i) ∧ Forwardable (Run.transition step s i) ∧
        (Run.transition step s i).input.nowMs ≤ now ∧
        ∀ x, ¬ Delivers (Run.transition step s i) subId seq x) →
      (step s i).2.WellFormed ∧ subId ≤ (step s i).2.kv.counter ∧
        ((step s i).2.slot subId seq).Held
          (deadlineAfter subId seq d (Run.transition step s i)) n now := by
    rintro d s i ⟨hwf, hknown, hheld⟩ ⟨hex, hfwd, hnow, hnone⟩
    have href : Refines s i (step s i).1 (step s i).2 := step_refines hwf hex.own.modify
    obtain ⟨e, he⟩ := href.slots subId seq
    refine ⟨href.wf, hknown.trans href.counter, ?_⟩
    refine he.held hheld hknown hex.steady hex.own.ack (hfwd.not_refused subId) (fun ds x hr hx hseq => ?_)
      hex.clock hnow
    exact hnone x ⟨ds, hr, hx, hseq⟩
  exact (Run.observe_inv (P := fun d s => s.WellFormed ∧ subId ≤ s.kv.counter ∧
    (s.slot subId seq).Held d n now) hstep ⟨hwf, hknown, hheld⟩ hc).2.2

section Runs

variable {is : List Input} {l between l' : List Transition} {tr₁ tr₂ : Transition}
  {subId seq : Nat} {secs : Int} {d₁ d₂ : Delivered}

theorem redelivery_after_deadline
    (hrun : ∀ tr ∈ history is, Exclusivity tr)
    (hclock : (is.map Input.nowMs).Pairwise (· ≤ ·))
    (hsplit : history is = l ++ tr₁ :: (between ++ tr₂ :: l'))
    (hfwd : ∀ tr ∈ between, Forwardable tr)
    (h₁ : Delivers tr₁ subId seq d₁) (h₂ : Delivers tr₂ subId seq d₂)
    (hbetween : ∀ tr ∈ between, ∀ d, ¬ Delivers tr subId seq d)
    (hcall : leaseCall tr₁.pre tr₁.input.op = some (subId, secs)) :
    let deadline := deadlineInForce subId seq
      (satAddI64 tr₁.input.nowMs (max secs 0 * 1000)) between
    let policy := reclaimPolicy tr₂.pre.kv subId
    deadline ≤ tr₂.input.nowMs ∧
      (policy.retryPolicyExplicit = true →
        policy.eligibleAt deadline d₁.deliveryAttempt ≤ tr₂.input.nowMs) := by
  have hmem₁ : tr₁ ∈ history is := by simp [hsplit]
  have hmem₂ : tr₂ ∈ history is := by simp [hsplit]
  have hmem : ∀ tr ∈ between, tr ∈ history is := fun tr htr => by simp [hsplit, htr]
  have hpair := pairwise_clock hclock
  rw [hsplit] at hpair
  have hle : ∀ tr ∈ between, tr.input.nowMs ≤ tr₂.input.nowMs := by
    intro tr htr
    have htail := (List.pairwise_cons.mp (List.pairwise_append.mp hpair).2.1).2
    exact (List.pairwise_append.mp htail).2.2 tr htr tr₂ List.mem_cons_self
  obtain ⟨js, hjs, hpre⟩ := split_between hsplit
  obtain ⟨r₁, hst₁, _, hatt⟩ := h₁.granted hmem₁ (hrun tr₁ hmem₁).own.modify
  obtain ⟨r₂, hst₂, _, _⟩ := h₂.granted hmem₂ (hrun tr₂ hmem₂).own.modify
  have hdeadline : r₁.deadlineMs = satAddI64 tr₁.input.nowMs (max secs 0 * 1000) := by
    obtain ⟨secs', hcall', hr, _⟩ := hst₁.cause
    rw [hcall] at hcall'
    cases hcall'
    exact hr
  have href := refines_of_mem hmem₁ (hrun tr₁ hmem₁).own.modify
  have hknown := (leaseCall_known (wellFormed_pre hmem₁) hcall).trans href.counter
  have hheld : (tr₁.post.slot subId seq).Held (satAddI64 tr₁.input.nowMs (max secs 0 * 1000))
      d₁.deliveryAttempt tr₂.input.nowMs := by
    rw [hst₁.slot, hatt, ← hdeadline]
    intro _
    refine ⟨r₁, rfl, le_rfl, le_rfl, fun l hl => ?_, fun hn => (by cases hn)⟩
    cases hl
    exact ⟨le_rfl, le_rfl⟩
  have hfinal := held_final js href.wf hknown hheld fun tr htr => by
    rw [← hjs] at htr
    exact ⟨hrun tr (hmem tr htr), hfwd tr htr, hle tr htr, hbetween tr htr⟩
  rw [← hjs, ← hpre] at hfinal
  obtain ⟨hp, k, hdue, _⟩ := hst₂.enabled
  exact hfinal.due hp hdue

end Runs

def exclusivityCheck (tr : Transition) : Bool :=
  tr.input.op.steady && ownIds tr.pre.kv tr.input.op && i64Min ≤ tr.input.nowMs

theorem Exclusivity.of_check {trs : List Transition} (h : trs.all exclusivityCheck = true) :
    ∀ tr ∈ trs, Exclusivity tr := by
  intro tr htr
  have hc := List.all_eq_true.mp h tr htr
  simp only [exclusivityCheck, Bool.and_eq_true, decide_eq_true_eq] at hc
  exact ⟨hc.1.1, .of_check hc.1.2, hc.2⟩

/-- `subA` has an explicit retry policy. -/
def backoffSetup : List Input := setup { minRetryBackoffSecs := some 10 }

/-- A pull, a deadline change, and a pull at the end of the backoff that follows the new
deadline. -/
theorem redelivery_after_extension :
    let tr₁ := firstOf backoffSetup (pullA 0)
    let tr₂ := secondOf backoffSetup [extendA 1000 100] (pullA 0) (pullA 111000)
    let deadline := deadlineInForce 2 1 (satAddI64 0 (max 10 0 * 1000))
      (betweenOf backoffSetup [extendA 1000 100] (pullA 0))
    ∃ d₁ d₂, Delivers tr₁ 2 1 d₁ ∧ Delivers tr₂ 2 1 d₂ ∧ deadline ≤ 111000 ∧
      (reclaimPolicy tr₂.pre.kv 2).eligibleAt deadline d₁.deliveryAttempt ≤ 111000 := by
  intro tr₁ tr₂ deadline
  have hfacts : (history (backoffSetup ++ pullA 0 :: ([extendA 1000 100] ++
        [pullA 111000]))).all exclusivityCheck = true ∧
      (betweenOf backoffSetup [extendA 1000 100] (pullA 0)).all (fun tr =>
        meetsNoRefusal tr.pre tr.input && (deliveryOf tr 2 1).isNone) = true ∧
      leaseCall tr₁.pre tr₁.input.op = some (2, 10) ∧ (deliveryOf tr₁ 2 1).isSome = true ∧
      (deliveryOf tr₂ 2 1).isSome = true ∧
      (reclaimPolicy tr₂.pre.kv 2).retryPolicyExplicit = true := by
    decide +kernel
  obtain ⟨hcheck, hbetween, hcall, hd₁, hd₂, hexplicit⟩ := hfacts
  obtain ⟨d₁, hd₁⟩ := Option.isSome_iff_exists.mp hd₁
  obtain ⟨d₂, hd₂⟩ := Option.isSome_iff_exists.mp hd₂
  have hquiet : ∀ tr ∈ betweenOf backoffSetup [extendA 1000 100] (pullA 0),
      meetsNoRefusal tr.pre tr.input = true ∧ (deliveryOf tr 2 1).isNone = true := fun tr htr =>
    Bool.and_eq_true_iff.mp (List.all_eq_true.mp hbetween tr htr)
  have hboth := redelivery_after_deadline (.of_check hcheck) (by decide) (history_split ..)
    (fun tr htr => .of_check (hquiet tr htr).1) (delivers_of_deliveryOf hd₁)
    (delivers_of_deliveryOf hd₂) (not_delivers_of_all (List.all_eq_true.mpr fun tr htr =>
      (hquiet tr htr).2)) hcall
  exact ⟨d₁, d₂, delivers_of_deliveryOf hd₁, delivers_of_deliveryOf hd₂, hboth.1,
    hboth.2 hexplicit⟩

/-- A dead-letter policy with an explicit retry policy. -/
def deadLetterOpts : CreateSubscriptionOptions :=
  { deadLetterTopic := some "projects/p/topics/dead"
    maxDeliveryAttempts := some 5
    minRetryBackoffSecs := some 10 }

/-- With the attributes that forwarding adds there are too many of them. -/
def crowdedAttributes : Attributes :=
  (List.range 97).foldr (fun k m => m.insert (String.ofList [Char.ofNat (k + 100)]) "") ∅

/-- Two messages, four deliveries each. The second one cannot be forwarded. -/
def crowdedSetup : List Input :=
  [⟨0, .createTopic "projects/p/topics/top1" ∅ none none false false⟩,
   ⟨0, .createSubscription "projects/p/subscriptions/subA" "projects/p/topics/top1" deadLetterOpts⟩,
   ⟨0, .createTopic "projects/p/topics/dead" ∅ none none false false⟩,
   ⟨0, .publish "projects/p/topics/top1" [⟨[1, 2, 3], ∅, ""⟩]⟩,
   ⟨0, .publish "projects/p/topics/top1" [⟨[1, 2, 3], crowdedAttributes, ""⟩]⟩,
   pullAll 0, pullAll 20000, pullAll 50000, pullAll 100000]

/-- The first pull forwards message `1` and fails on message `2`; the second grants
message `1` anew, as its first attempt, and fails again. -/
def refusedPulls : List Input := [pullAll 360000, pullAll 360000, extendA 360000 100]

theorem redelivery_before_backoff :
    let between := betweenOf crowdedSetup refusedPulls (pullAll 190000)
    let tr₁ := firstOf crowdedSetup (pullAll 190000)
    let tr₂ := secondOf crowdedSetup refusedPulls (pullAll 190000) (pullA 470000)
    let deadline := deadlineInForce 2 1 (satAddI64 190000 (max 10 0 * 1000)) between
    let policy := reclaimPolicy tr₂.pre.kv 2
    ((∀ tr ∈ history (crowdedSetup ++ pullAll 190000 :: (refusedPulls ++ [pullA 470000])),
      Exclusivity tr) ∧
      ((crowdedSetup ++ pullAll 190000 :: (refusedPulls ++ [pullA 470000])).map
        Input.nowMs).Pairwise (· ≤ ·) ∧
      (∀ tr ∈ between, ∀ d, ¬ Delivers tr 2 1 d)) ∧
    leaseCall tr₁.pre tr₁.input.op = some (2, 10) ∧
    (∃ d₁ d₂, Delivers tr₁ 2 1 d₁ ∧ Delivers tr₂ 2 1 d₂ ∧ d₁.deliveryAttempt = 5) ∧
    policy.retryPolicyExplicit = true ∧ tr₂.input.nowMs < policy.eligibleAt deadline 5 := by
  intro between tr₁ tr₂ deadline policy
  have hfacts : (history (crowdedSetup ++ pullAll 190000 ::
        (refusedPulls ++ [pullA 470000]))).all exclusivityCheck = true ∧
      between.all (fun tr => (deliveryOf tr 2 1).isNone) = true ∧
      leaseCall tr₁.pre tr₁.input.op = some (2, 10) ∧
      (deliveryOf tr₁ 2 1).map Delivered.deliveryAttempt = some 5 ∧
      (deliveryOf tr₂ 2 1).isSome = true ∧
      policy.retryPolicyExplicit = true ∧ tr₂.input.nowMs < policy.eligibleAt deadline 5 := by
    decide +kernel
  obtain ⟨hcheck, hnone, hcall, hd₁, hd₂, hpolicy⟩ := hfacts
  obtain ⟨d₁, hd₁, hatt⟩ := Option.map_eq_some_iff.mp hd₁
  obtain ⟨d₂, hd₂⟩ := Option.isSome_iff_exists.mp hd₂
  exact ⟨⟨.of_check hcheck, by decide, not_delivers_of_all hnone⟩, hcall,
    ⟨d₁, d₂, delivers_of_deliveryOf hd₁, delivers_of_deliveryOf hd₂, hatt⟩, hpolicy⟩

end OpenPubusb
