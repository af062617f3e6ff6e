import OpenPubusb.CatalogOps

/-! The delivery settings of a subscription record: what a step can leave in a
record, which values the validators let through, and how the fields of the
dead-letter and the retry policy depend on each other. -/

namespace OpenPubusb

section Records

/-- What a step may leave as the record `id`. -/
inductive RecordStep (op : Op) (kv : Kv) (id : Nat) : SubscriptionRecord → Prop
  | rewritten {r r' : SubscriptionRecord} (hr : kv.subs.get id = some r) (h : Rewrites op r r') :
      RecordStep op kv id r'
  | orphaned {r : SubscriptionRecord} {topic : String} (hop : op = .deleteTopic topic)
      (hr : kv.subs.get id = some r) :
      RecordStep op kv id { r with topic := deletedTopic }
  | created {name topic : String} {opts : CreateSubscriptionOptions} {topicId : Nat}
      {nowMs n : Int} (hop : op = .createSubscription name topic opts)
      (hopts : SubscriptionStore.checkOptions name topic opts = .ok n)
      (hnew : kv.counter < id) :
      RecordStep op kv id (SubscriptionStore.newRecord name topic topicId nowMs opts n id)

variable {op : Op} {kv kv' : Kv} {id : Nat} {r' : SubscriptionRecord}

theorem recordStep_kept (h : kv.subs.get id = some r') : RecordStep op kv id r' :=
  .rewritten h (.touch op r' r'.lastActivityTsMs)

theorem Change.recordStep (h : Change op kv kv') (hc : Consistent kv)
    (hr' : kv'.subs.get id = some r') : RecordStep op kv id r' := by
  cases h with
  | rewrite w hr hw =>
    rw [(persist_rows hc hr hw.identity_eq).1] at hr'
    split_ifs at hr' with hi
    · cases hr'
      exact .rewritten (hi ▸ hr) hw
    · exact recordStep_kept hr'
  | deleteTopic w _ _ hsubs _ =>
    rw [hsubs] at hr'
    obtain ⟨y, hy, hyx⟩ := Option.map_eq_some_iff.mp hr'
    split_ifs at hyx
    · subst hyx
      exact .orphaned rfl hy
    · exact recordStep_kept (hyx ▸ hy)
  | createSubscription w hname ht hopts =>
    rw [SortedMap.get_insert] at hr'
    split_ifs at hr' with hi
    · cases hr'
      rw [← hi]
      exact .created rfl hopts (by omega)
    · exact recordStep_kept hr'
  | deleteSubscription =>
    rw [SortedMap.get_erase] at hr'
    split_ifs at hr'
    exact recordStep_kept hr'
  | _ => exact recordStep_kept hr'

theorem Path.record_touched (h : Path op kv kv') (hc : Consistent kv) (hs : op.isSingle = false)
    (hr' : kv'.subs.get id = some r') :
    ∃ r nowMs, kv.subs.get id = some r ∧ r' = { r with lastActivityTsMs := nowMs } := by
  induction h generalizing r' with
  | refl => exact ⟨r', r'.lastActivityTsMs, hr', rfl⟩
  | tail hp hch ih =>
    cases hch.recordStep (Path.evolves hp hc).consistent hr' with
    | rewritten hr hw =>
      obtain ⟨r, n, hpre, rfl⟩ := ih hr
      cases hw with
      | touch _ _ n' => exact ⟨r, n', hpre, rfl⟩
      | _ => cases hs
    | orphaned hop =>
      rw [hop] at hs
      cases hs
    | created hop =>
      rw [hop] at hs
      cases hs

theorem step_record {s : Engine} (hc : Consistent s.kv) (hh : s.kv.Healthy) (i : Input)
    (hr' : (step s i).2.kv.subs.get id = some r') : RecordStep i.op s.kv id r' := by
  cases hsingle : i.op.isSingle with
  | true =>
    have hone := step_once hc hh hsingle
    revert hr' hone
    generalize (step s i).2.kv = kv'
    intro hr' hone
    cases hone with
    | refl => exact recordStep_kept hr'
    | single hch => exact hch.recordStep hc hr'
  | false =>
    obtain ⟨r, n, hr, rfl⟩ := (step_path i hc hh).record_touched hc hsingle hr'
    exact .rewritten hr (.touch _ _ n)

theorem RecordStep.kept (h : RecordStep op kv id r') (hid : id ≤ kv.counter) :
    ∃ r, kv.subs.get id = some r ∧ r'.topicId = r.topicId ∧ r'.filter = r.filter := by
  cases h with
  | rewritten hr hw =>
    have hkey := hw.identity_eq
    exact ⟨_, hr, congrArg (fun k => k.2.2.1) hkey, congrArg (fun k => k.2.2.2) hkey⟩
  | orphaned _ hr => exact ⟨_, hr, rfl, rfl⟩
  | created _ _ hnew => omega

end Records

section Validation

theorem bind_eq_ok {α β : Type} {x : Result α} {f : α → Result β} {b : β} :
    (x >>= f) = .ok b ↔ ∃ a, x = .ok a ∧ f a = .ok b := by
  constructor
  · intro h
    cases x with
    | ok a => exact ⟨a, rfl, h⟩
    | error e => cases h
  · rintro ⟨a, rfl, h⟩
    exact h

theorem optValidate_eq_ok {v : Option Int} {validate : Int → Result Unit} {u : Unit} :
    SubscriptionStore.optValidate v validate = .ok u ↔ ∀ x, v = some x → validate x = .ok () := by
  cases v with
  | none => exact ⟨nofun, fun _ => rfl⟩
  | some x =>
    constructor
    · intro h y hy
      cases hy
      exact h
    · exact fun h => h x rfl

theorem createMaxDeliveryAttempts_eq_ok {opts : CreateSubscriptionOptions} {n : Int}
    (h : SubscriptionStore.createMaxDeliveryAttempts opts = .ok n) :
    (opts.deadLetterTopic = none → n = 0) ∧ (opts.deadLetterTopic ≠ none →
      minDeadLetterMaxAttempts ≤ n ∧ n ≤ maxDeadLetterMaxAttempts) := by
  unfold SubscriptionStore.createMaxDeliveryAttempts at h
  cases ht : opts.deadLetterTopic with
  | none =>
    rw [ht] at h
    cases h
    exact ⟨fun _ => rfl, fun hn => absurd rfl hn⟩
  | some topic =>
    rw [ht, Option.isSome_some, if_pos rfl, bind_eq_ok] at h
    obtain ⟨_, hv, hn⟩ := h
    cases hn
    refine ⟨nofun, fun _ => ?_⟩
    unfold validateDeadLetterMaxAttempts at hv
    split_ifs at hv ⊢ with h0
    · decide
    · exact validateRange_eq_ok.mp hv

theorem checkOptions_eq_ok {name topic : String} {opts : CreateSubscriptionOptions} {n : Int}
    (h : SubscriptionStore.checkOptions name topic opts = .ok n) :
    validateAckDeadlineSecs (opts.ackDeadlineSecs.getD 10) = .ok () ∧
      SubscriptionStore.createMaxDeliveryAttempts opts = .ok n ∧
      validateSubscriptionRetentionSecs (opts.messageRetentionSecs.getD 604800) = .ok () ∧
      (∀ v, opts.minRetryBackoffSecs = some v → validateRetryBackoffSecs v = .ok ()) ∧
      ∀ v, opts.maxRetryBackoffSecs = some v → validateRetryBackoffSecs v = .ok () := by
  simp only [SubscriptionStore.checkOptions] at h
  split_ifs at h with hb hs
  all_goals simp only [bind_eq_ok] at h
  · obtain ⟨_, _, _, _, _, ht, _⟩ := h
    cases ht
  · obtain ⟨_, _, _, _, _, ht, _⟩ := h
    cases ht
  · obtain ⟨_, _, _, _, _, ht, _⟩ := h
    cases ht
  · obtain ⟨_, _, _, _, _, hack, _, hret, _, _, n', hn, _, hmin, _, hmax, he⟩ := h
    cases he
    exact ⟨hack, hn, hret, optValidate_eq_ok.mp hmin, optValidate_eq_ok.mp hmax⟩

theorem checkPatch_eq_ok {patch : SubscriptionUpdatePatch}
    (h : SubscriptionStore.checkPatch patch = .ok ()) :
    (∀ v, patch.ackDeadlineSecs = some v → validateAckDeadlineSecs v = .ok ()) ∧
      (∀ v, patch.maxDeliveryAttempts = some v → validateDeadLetterMaxAttempts v = .ok ()) ∧
      (∀ v, patch.messageRetentionSecs = some v →
        validateSubscriptionRetentionSecs v = .ok ()) ∧
      (∀ v, patch.minRetryBackoffSecs = some v → validateRetryBackoffSecs v = .ok ()) ∧
      ∀ v, patch.maxRetryBackoffSecs = some v → validateRetryBackoffSecs v = .ok () := by
  simp only [SubscriptionStore.checkPatch, bind_eq_ok, optValidate_eq_ok] at h
  obtain ⟨_, hack, _, hret, _, hatt, _, hmin, hmax⟩ := h
  exact ⟨hack, hatt, hret, hmin, hmax⟩

end Validation

section Coupling

/-- The fields of the policies fit together. -/
structure PolicyCoupled (r : SubscriptionRecord) : Prop where
  on : r.deadLetterTopic ≠ none → 5 ≤ r.maxDeliveryAttempts ∧ r.maxDeliveryAttempts ≤ 100
  off : r.deadLetterTopic = none → r.maxDeliveryAttempts = 0
  backoff : r.minRetryBackoffSecs ≤ r.maxRetryBackoffSecs

theorem PolicyCoupled.backoff_le {r : SubscriptionRecord} (h : PolicyCoupled r) (n : Nat) :
    backoffForAttempts n r.minRetryBackoffSecs r.maxRetryBackoffSecs ≤
      max (r.maxRetryBackoffSecs.toNat * 1000) minPossibleBackoffMs := by
  have hle : r.minRetryBackoffSecs.toNat ≤ r.maxRetryBackoffSecs.toNat := by
    have := h.backoff
    omega
  unfold backoffForAttempts
  refine (min_le_right _ _).trans (max_le (le_max_left _ _) (max_le_max ?_ le_rfl))
  exact Nat.mul_le_mul_right 1000 hle

/-- A patch of the dead-letter topic comes with the number of attempts that the new
value needs, and a patched number of attempts has a topic. -/
def PatchKeepsDeadLetter (r : SubscriptionRecord) (patch : SubscriptionUpdatePatch) : Prop :=
  match patch.deadLetterTopic with
  | some (some _) => r.deadLetterTopic = none → patch.maxDeliveryAttempts ≠ none
  | some none => r.deadLetterTopic = none ∧ patch.maxDeliveryAttempts = none
  | none => r.deadLetterTopic = none → patch.maxDeliveryAttempts = none

def PatchKeepsBackoff (r : SubscriptionRecord) (patch : SubscriptionUpdatePatch) : Prop :=
  patch.minRetryBackoffSecs.getD r.minRetryBackoffSecs ≤
    patch.maxRetryBackoffSecs.getD r.maxRetryBackoffSecs

/-- The values that `create` and `update` are asked to store fit together. -/
def CouplesPolicies (kv : Kv) : Op → Prop
  | .createSubscription _ _ opts =>
    opts.minRetryBackoffSecs.getD 10 ≤ opts.maxRetryBackoffSecs.getD 600
  | .updateSubscription name patch => ∀ r, SubscriptionStore.get kv name = .ok r →
    PatchKeepsDeadLetter r patch ∧ PatchKeepsBackoff r patch
  | _ => True

theorem patched_maxDeliveryAttempts {r : SubscriptionRecord} {patch : SubscriptionUpdatePatch}
    (h : SubscriptionStore.checkPatch patch = .ok ()) :
    (patch.maxDeliveryAttempts = none →
      (SubscriptionStore.patched r patch).maxDeliveryAttempts = r.maxDeliveryAttempts) ∧
    (patch.maxDeliveryAttempts ≠ none →
      5 ≤ (SubscriptionStore.patched r patch).maxDeliveryAttempts ∧
      (SubscriptionStore.patched r patch).maxDeliveryAttempts ≤ 100) := by
  unfold SubscriptionStore.patched
  cases hv : patch.maxDeliveryAttempts with
  | none => exact ⟨fun _ => rfl, fun hn => absurd rfl hn⟩
  | some v =>
    refine ⟨nofun, fun _ => ?_⟩
    have hval := (checkPatch_eq_ok h).2.1 v hv
    unfold validateDeadLetterMaxAttempts at hval
    simp only
    split_ifs at hval ⊢ with h0
    · decide
    · exact validateRange_eq_ok.mp hval

/-- An accepted patch keeps the fields together exactly when it patches them
together. -/
theorem patched_coupled_iff {r : SubscriptionRecord} {patch : SubscriptionUpdatePatch}
    (hr : PolicyCoupled r) (h : SubscriptionStore.checkPatch patch = .ok ()) :
    PolicyCoupled (SubscriptionStore.patched r patch) ↔
      PatchKeepsDeadLetter r patch ∧ PatchKeepsBackoff r patch := by
  obtain ⟨hsame, hnew⟩ := patched_maxDeliveryAttempts (r := r) h
  have htopic : (SubscriptionStore.patched r patch).deadLetterTopic =
      patch.deadLetterTopic.getD r.deadLetterTopic := rfl
  have hon := hr.on
  have hoff := hr.off
  unfold PatchKeepsDeadLetter
  constructor
  · intro hp
    refine ⟨?_, hp.backoff⟩
    have hon' := hp.on
    have hoff' := hp.off
    rw [htopic] at hon' hoff'
    by_cases hv : patch.maxDeliveryAttempts = none
    · have he := hsame hv
      rcases hd : patch.deadLetterTopic with _ | _ | t
      · exact fun _ => hv
      · rw [hd] at hoff'
        refine ⟨?_, hv⟩
        by_contra hn
        have := hon hn
        have := hoff' rfl
        omega
      · rw [hd] at hon'
        intro hn
        have := hoff hn
        have := hon' (by simp)
        omega
    · have hpos := (hnew hv).1
      rcases hd : patch.deadLetterTopic with _ | _ | t
      · rw [hd] at hoff'
        intro hn
        have := hoff' hn
        omega
      · rw [hd] at hoff'
        have := hoff' rfl
        omega
      · exact fun _ => hv
  · rintro ⟨hd, hb⟩
    refine ⟨fun hn => ?_, fun hn => ?_, hb⟩
    all_goals rw [htopic] at hn
    · by_cases hv : patch.maxDeliveryAttempts = none
      · rw [hsame hv]
        refine hon fun hnone => ?_
        rcases hp : patch.deadLetterTopic with _ | _ | t
        · rw [hp] at hn
          exact hn hnone
        · rw [hp] at hn
          exact hn rfl
        · rw [hp] at hd
          exact hd hnone hv
      · exact hnew hv
    · rcases hp : patch.deadLetterTopic with _ | _ | t
      · rw [hp] at hn hd
        rw [hsame (hd hn), hoff hn]
      · rw [hp] at hd
        rw [hsame hd.2, hoff hd.1]
      · rw [hp] at hn
        cases hn

/-- Every stored record is coupled. -/
structure AllCoupled (s : Engine) : Prop where
  consistent : Consistent s.kv
  healthy : s.kv.Healthy
  coupled : ∀ {id r}, s.kv.subs.get id = some r → PolicyCoupled r

theorem coupled_newRecord {name topic : String} {opts : CreateSubscriptionOptions} {topicId : Nat}
    {nowMs n : Int} {id : Nat} (hopts : SubscriptionStore.checkOptions name topic opts = .ok n)
    (hb : opts.minRetryBackoffSecs.getD 10 ≤ opts.maxRetryBackoffSecs.getD 600) :
    PolicyCoupled (SubscriptionStore.newRecord name topic topicId nowMs opts n id) := by
  obtain ⟨hoff, hon⟩ := createMaxDeliveryAttempts_eq_ok (checkOptions_eq_ok hopts).2.1
  exact ⟨hon, hoff, hb⟩

theorem AllCoupled.step {s : Engine} (h : AllCoupled s) (i : Input)
    (hc : CouplesPolicies s.kv i.op) : AllCoupled (OpenPubusb.step s i).2 := by
  have hev := (step_path i h.consistent h.healthy).evolves h.consistent
  refine ⟨hev.consistent, hev.healthy h.healthy, fun {id r'} hr' => ?_⟩
  cases step_record h.consistent h.healthy i hr' with
  | @rewritten r _ hr hw =>
    have hcoupled := h.coupled hr
    generalize hop : i.op = op at hw
    cases hw with
    | update _ patch hpatch =>
      have hget := h.consistent.get_name hr
      rw [hop] at hc
      exact (patched_coupled_iff hcoupled hpatch).mpr (hc r hget)
    | _ => exact ⟨hcoupled.on, hcoupled.off, hcoupled.backoff⟩
  | orphaned hop hr =>
    have hcoupled := h.coupled hr
    exact ⟨hcoupled.on, hcoupled.off, hcoupled.backoff⟩
  | created hop hopts =>
    rw [hop] at hc
    exact coupled_newRecord hopts hc

/-- Along a run whose updates keep the fields together, every record has a policy
that is on with its number of attempts or off without one, and a backoff that
stays below its maximum. -/
theorem policies_coupled (is : List Input)
    (h : ∀ tr ∈ history is, CouplesPolicies tr.pre.kv tr.input.op) :
    ∀ id r, (Run.final step start is).kv.subs.get id = some r → PolicyCoupled r ∧
      ∀ n, backoffForAttempts n r.minRetryBackoffSecs r.maxRetryBackoffSecs ≤
        max (r.maxRetryBackoffSecs.toNat * 1000) minPossibleBackoffMs := by
  have hinv : AllCoupled (Run.final step start is) := by
    refine Run.inv_final (C := fun tr : Transition => CouplesPolicies tr.pre.kv tr.input.op)
      (fun s i hs hc => hs.step i hc) ⟨consistent_empty, fun _ => rfl, fun h => ?_⟩ h
    cases h
  intro id r hr
  exact ⟨hinv.coupled hr, (hinv.coupled hr).backoff_le⟩

def deadLetterOptions : CreateSubscriptionOptions :=
  { deadLetterTopic := some "projects/p/topics/top1", maxDeliveryAttempts := some 7 }

/-- The subscriptions have a dead-letter topic; then the first one is updated. -/
def updateRun (patch : SubscriptionUpdatePatch) : List Input :=
  setup deadLetterOptions ++ [⟨1, .updateSubscription "projects/p/subscriptions/subA" patch⟩]

/-- Topic, attempts and both backoffs are patched together. -/
def wholePolicy : SubscriptionUpdatePatch :=
  { deadLetterTopic := some (some "projects/p/topics/top1"), maxDeliveryAttempts := some 9
    minRetryBackoffSecs := some 5, maxRetryBackoffSecs := some 20 }

theorem policies_coupled_whole : ∃ r,
    (Run.final step start (updateRun wholePolicy)).kv.subs.get 2 = some r ∧
      r.maxDeliveryAttempts = 9 ∧ PolicyCoupled r := by
  have hsub : ((Run.final step start (updateRun wholePolicy)).kv.subs.get 2).map
      SubscriptionRecord.maxDeliveryAttempts = some 9 := by
    decide +kernel
  obtain ⟨r, hr, hn⟩ := Option.map_eq_some_iff.mp hsub
  refine ⟨r, hr, hn, (policies_coupled (updateRun wholePolicy) ?_ 2 r hr).1⟩
  refine Run.forall_trace_of_inputs fun i hi s => ?_
  simp only [updateRun, setup, List.cons_append, List.nil_append, List.mem_cons, List.not_mem_nil,
    or_false] at hi
  rcases hi with rfl | rfl | rfl | rfl | rfl
  · trivial
  · exact (by decide : (10 : Int) ≤ 600)
  · exact (by decide : (10 : Int) ≤ 600)
  · trivial
  · exact fun r _ => ⟨nofun, (by decide : (5 : Int) ≤ 20)⟩

/-- The topic is taken off, and the number of attempts stays. -/
theorem policies_uncoupled : ¬ ∀ (is : List Input) (id : Nat) (r : SubscriptionRecord),
    (Run.final step start is).kv.subs.get id = some r → PolicyCoupled r := by
  intro h
  have hsub : ((Run.final step start (updateRun { deadLetterTopic := some none })).kv.subs.get
      2).map (fun r => (r.deadLetterTopic, r.maxDeliveryAttempts)) = some (none, 7) := by
    decide +kernel
  obtain ⟨r, hr, hn⟩ := Option.map_eq_some_iff.mp hsub
  simp only [Prod.mk.injEq] at hn
  have hoff := (h _ 2 r hr).off hn.1
  omega

end Coupling

end OpenPubusb
