import OpenPubusb.NameParsing
import OpenPubusb.SubscriptionMasks

/-! What a client may do with a subscription that it has read: write it back, or create
another one of it. -/

namespace OpenPubusb

open Hoare

section Exportable

/-- A record that the API can write without a loss. -/
structure Exportable (r : SubscriptionRecord) : Prop where
  within : WithinRanges r
  attempts : r.deadLetterTopic ≠ none → r.maxDeliveryAttempts ≠ 0
  push : ∀ cfg, r.pushConfig = some cfg →
    cfg.endpoint ≠ "" ∧ (cfg.noWrapper = false → cfg.writeMetadata = false)
  filter : validateFilterLen r.filter = .ok ()

theorem pushConfigNamed_eq_some {pc : Option Proto.PushConfig} {cfg : PushConfig}
    (h : pushConfigNamed pc = some cfg) :
    cfg.endpoint ≠ "" ∧ (cfg.noWrapper = false → cfg.writeMetadata = false) := by
  unfold pushConfigNamed at h
  obtain ⟨x, hx, rfl⟩ := Option.map_eq_some_iff.mp h
  have hendpoint : x.pushEndpoint ≠ "" := by
    simpa using (Option.filter_eq_some_iff.mp hx).2
  unfold pushConfigFromProto
  rcases x.wrapper with _ | _ | m
  · exact ⟨hendpoint, fun _ => rfl⟩
  · exact ⟨hendpoint, fun _ => rfl⟩
  · exact ⟨hendpoint, fun h => by cases h⟩

theorem pushConfigNamed_toProto {cfg : Option PushConfig} (h : ∀ c, cfg = some c →
    c.endpoint ≠ "" ∧ (c.noWrapper = false → c.writeMetadata = false)) :
    pushConfigNamed (cfg.map pushConfigToProto) = cfg := by
  cases cfg with
  | none => rfl
  | some c =>
    obtain ⟨hendpoint, hplain⟩ := h c rfl
    obtain ⟨endpoint, noWrapper, writeMetadata⟩ := c
    unfold pushConfigNamed pushConfigToProto pushConfigFromProto
    cases noWrapper with
    | true => simp [hendpoint]
    | false =>
      have hmeta : writeMetadata = false := hplain rfl
      simp [hendpoint, hmeta]

variable {r : SubscriptionRecord} {patch : SubscriptionUpdatePatch}

theorem durations_read_back (ttl : Option Int) :
    (ttl.map secsToDuration).map durationToSecs = ttl := by
  cases ttl <;> rfl

theorem masked_getD {α : Type} (paths : List String) (path : String) (v : α) :
    (masked paths path (some v)).getD v = v := by
  unfold masked
  by_cases h : path ∈ paths <;> simp [h]

/-- What is left of a record that is written back: only the mark that its backoff was
asked for. -/
def marked (r : SubscriptionRecord) (paths : List String) : SubscriptionRecord :=
  { r with retryPolicyExplicit := r.retryPolicyExplicit || decide ("retry_policy" ∈ paths) }

theorem Exportable.patched (h : Exportable r) (paths : List String) :
    SubscriptionStore.patched r (patchFromMask (subscriptionToProto r) paths) =
      marked r paths := by
  have hpush := pushConfigNamed_toProto h.push
  have hsome : ∀ {α : Type} (v : α), (masked paths "retry_policy" (some v)).isSome =
      decide ("retry_policy" ∈ paths) := by
    intro α v
    unfold masked
    by_cases hp : "retry_policy" ∈ paths <;> simp [hp]
  have htopic : (r.deadLetterTopic.map fun topic =>
      (⟨topic, r.maxDeliveryAttempts⟩ : Proto.DeadLetterPolicy)).map
        Proto.DeadLetterPolicy.deadLetterTopic = r.deadLetterTopic := by
    cases r.deadLetterTopic <;> rfl
  unfold SubscriptionStore.patched patchFromMask subscriptionToProto marked
  simp only [hpush, htopic, Option.bind_some, Option.map_some, durations_read_back, masked_getD,
    secsToDuration, durationToSecs, hsome, Bool.or_assoc, Bool.or_self,
    SubscriptionRecord.mk.injEq, true_and, and_true]
  unfold masked
  by_cases hp : "dead_letter_policy" ∈ paths
  · cases htop : r.deadLetterTopic with
    | none => simp [hp]
    | some topic => simp [hp, h.attempts (by simp [htop])]
  · simp [hp]

theorem Exportable.checked (h : Exportable r) (paths : List String) :
    SubscriptionStore.checkPatch (patchFromMask (subscriptionToProto r) paths) = .ok () := by
  obtain ⟨hack, hret, hmin, hmax, hatt⟩ := h.within
  simp only [checkPatch_iff, patchFromMask, masked_some, subscriptionToProto, Option.bind_some,
    Option.map_some, secsToDuration, durationToSecs, Option.some.injEq, forall_eq']
  refine ⟨fun _ => validateRange_eq_ok.mpr hack, fun _ => validateRange_eq_ok.mpr hret,
    fun _ v hv => ?_, fun _ => validateRange_eq_ok.mpr hmin, fun _ => validateRange_eq_ok.mpr hmax⟩
  cases htop : r.deadLetterTopic with
  | none =>
    rw [htop] at hv
    cases hv
  | some topic =>
    rw [htop] at hv
    cases hv
    unfold validateDeadLetterMaxAttempts
    split_ifs with h0
    · rfl
    · exact validateRange_eq_ok.mpr (hatt.resolve_left h0)

end Exportable

section Requests

variable {r : SubscriptionRecord}

theorem filter_of_checkOptions {name topic : String} {opts : CreateSubscriptionOptions} {n : Int}
    (h : SubscriptionStore.checkOptions name topic opts = .ok n) :
    validateFilterLen opts.filter = .ok () := by
  simp only [SubscriptionStore.checkOptions] at h
  split_ifs at h with hb hs
  all_goals simp only [bind_eq_ok] at h
  · obtain ⟨_, _, _, _, _, ht, _⟩ := h
    cases ht
  · obtain ⟨_, _, _, _, _, ht, _⟩ := h
    cases ht
  · obtain ⟨_, _, _, _, _, ht, _⟩ := h
    cases ht
  · obtain ⟨_, _, _, _, _, _, _, _, _, hfilter, _⟩ := h
    exact hfilter

theorem exportable_created {name topic : String} {sub : Proto.Subscription} {topicId : Nat}
    {nowMs n : Int} {id : Nat}
    (h : SubscriptionStore.checkOptions name topic (createOptionsFromProto sub) = .ok n) :
    Exportable (SubscriptionStore.newRecord name topic topicId nowMs (createOptionsFromProto sub)
      n id) where
  within := within_newRecord h
  attempts ht := by
    have hn := (createMaxDeliveryAttempts_eq_ok (checkOptions_eq_ok h).2.1).2 ht
    have hpos : minDeadLetterMaxAttempts = 5 := rfl
    show n ≠ 0
    omega
  push _ hcfg := pushConfigNamed_eq_some hcfg
  filter := filter_of_checkOptions h

theorem Exportable.update (h : Exportable r) {sub : Proto.Subscription} {paths : List String}
    (hcheck : SubscriptionStore.checkPatch (patchFromMask sub paths) = .ok ()) :
    Exportable (SubscriptionStore.patched r (patchFromMask sub paths)) where
  within := within_patched h.within hcheck
  attempts := by
    unfold SubscriptionStore.patched patchFromMask masked
    by_cases hp : "dead_letter_policy" ∈ paths
    · cases hpolicy : sub.deadLetterPolicy with
      | none => simp [hp]
      | some policy =>
        intro _
        simp only [hp, if_true, Option.map_some]
        split_ifs with h0
        · decide
        · exact h0
    · simpa [hp] using h.attempts
  push := by
    unfold SubscriptionStore.patched patchFromMask masked
    by_cases hp : "push_config" ∈ paths
    · simpa [hp] using fun cfg => pushConfigNamed_eq_some
    · simpa [hp] using h.push
  filter := h.filter

theorem Exportable.congr (h : Exportable r) {r' : SubscriptionRecord}
    (hpush : ∀ cfg, r'.pushConfig = some cfg →
      cfg.endpoint ≠ "" ∧ (cfg.noWrapper = false → cfg.writeMetadata = false))
    (heq : (r'.ackDeadlineSecs, r'.messageRetentionSecs, r'.minRetryBackoffSecs,
      r'.maxRetryBackoffSecs, r'.maxDeliveryAttempts, r'.deadLetterTopic, r'.filter) =
        (r.ackDeadlineSecs, r.messageRetentionSecs, r.minRetryBackoffSecs,
      r.maxRetryBackoffSecs, r.maxDeliveryAttempts, r.deadLetterTopic, r.filter)) :
    Exportable r' := by
  simp only [Prod.mk.injEq] at heq
  obtain ⟨hack, hret, hmin, hmax, hatt, htop, hfilter⟩ := heq
  obtain ⟨⟨hack', hret', hmin', hmax', hatt'⟩, hattempts, _, hfilter'⟩ := h
  refine ⟨⟨?_, ?_, ?_, ?_, ?_⟩, ?_, hpush, ?_⟩
  · rwa [hack]
  · rwa [hret]
  · rwa [hmin]
  · rwa [hmax]
  · rwa [hatt]
  · rwa [htop, hatt]
  · rwa [hfilter]

/-- Every stored record is exportable. -/
structure AllExportable (s : Engine) : Prop where
  consistent : Consistent s.kv
  healthy : s.kv.Healthy
  exportable : ∀ {id r}, s.kv.subs.get id = some r → Exportable r

theorem AllExportable.step {s : Engine} (h : AllExportable s) (i : Input)
    (hfrom : FromRequest i.op) : AllExportable (OpenPubusb.step s i).2 := by
  have hev := (step_path i h.consistent h.healthy).evolves h.consistent
  refine ⟨hev.consistent, hev.healthy h.healthy, fun {id r'} hr' => ?_⟩
  cases step_record h.consistent h.healthy i hr' with
  | @rewritten r _ hr hw =>
    have hexp := h.exportable hr
    generalize hop : i.op = op at hw
    cases hw with
    | update _ patch hpatch =>
      rw [hop] at hfrom
      obtain ⟨sub, paths, rfl⟩ := hfrom
      exact hexp.update hpatch
    | pushConfig _ cfg =>
      rw [hop] at hfrom
      obtain ⟨pc, rfl⟩ := hfrom
      exact hexp.congr (fun _ hcfg => pushConfigNamed_eq_some hcfg) rfl
    | touch => exact hexp.congr hexp.push rfl
    | detach => exact hexp.congr hexp.push rfl
  | orphaned _ hr =>
    have hexp := h.exportable hr
    exact hexp.congr hexp.push rfl
  | created hop hopts =>
    rw [hop] at hfrom
    obtain ⟨sub, rfl⟩ := hfrom
    exact exportable_created hopts

theorem allExportable_final {is : List Input} (h : ∀ i ∈ is, FromRequest i.op) :
    AllExportable (Run.final step start is) := by
  refine Run.inv_final (C := fun tr : Transition => FromRequest tr.input.op)
    (fun s i hs hc => hs.step i hc) ⟨consistent_empty, fun _ => rfl, fun h => ?_⟩
    (Run.forall_trace_of_inputs fun i hi _ => h i hi)
  cases h

end Requests

section Reads

variable {s s' : Engine} {name : String} {p : Proto.Subscription} {r : SubscriptionRecord}

theorem getSubscription_eq_ok (h : SubscriberService.getSubscription name s = .ok p s') :
    s' = s ∧ ∃ r, SubscriptionStore.get s.kv name = .ok r ∧ p = subscriptionToProto r := by
  simp only [SubscriberService.getSubscription, bind, EStateM.bind, estateGet_apply, mapErr] at h
  cases hget : SubscriptionStore.get s.kv name with
  | error e =>
    rw [hget] at h
    cases h
  | ok r =>
    rw [hget] at h
    cases h
    exact ⟨rfl, r, rfl, rfl⟩

theorem getSubscription_of_get (h : SubscriptionStore.get s.kv name = .ok r) :
    SubscriberService.getSubscription name s = .ok (subscriptionToProto r) s := by
  simp only [SubscriberService.getSubscription, bind, EStateM.bind, estateGet_apply, mapErr]
  rw [h]
  rfl

/-- Whatever a run of requests left, a subscription that is read and written back under any
mask of fields that may change is accepted, and neither the reply nor the store differs,
except that a named retry policy counts as asked for from then on. -/
theorem export_writes_back (is : List Input) (h : ∀ i ∈ is, FromRequest i.op) (name : String)
    (p : Proto.Subscription) (s' : Engine)
    (hget : SubscriberService.getSubscription name (Run.final step start is) = .ok p s')
    (paths : List String) (hpaths : ∀ path ∈ immutablePaths, path ∉ paths) :
    ∃ r, SubscriptionStore.get (Run.final step start is).kv name = .ok r ∧
      SubscriberService.updateSubscription ⟨some p, some paths⟩ s' = .ok p
        ((Run.final step start is).rewritten (marked r paths) (s'.kv.writes + 2)) := by
  obtain ⟨rfl, r, hr, rfl⟩ := getSubscription_eq_ok hget
  have hall := allExportable_final h
  have hnamed := named_of_get hall.consistent hall.healthy hr
  have hexp := hall.exportable hnamed.row
  have hname : (subscriptionToProto r).name = name := hnamed.name_eq
  have hupdated : Updated (Run.final step start is) (subscriptionToProto r) paths r :=
    ⟨hpaths, hexp.checked paths, hname.symm ▸ hnamed⟩
  refine ⟨r, hr, ?_⟩
  rw [hupdated.run, Engine.updated, hexp.patched paths]
  rfl

theorem fromRequest_setup : ∀ i ∈ setup {}, FromRequest i.op := by
  have hopts : ({} : CreateSubscriptionOptions) = createOptionsFromProto plainSubscription := rfl
  intro i hi
  simp only [setup, List.mem_cons, List.not_mem_nil, or_false] at hi
  rcases hi with rfl | rfl | rfl | rfl
  · trivial
  · exact ⟨plainSubscription, hopts⟩
  · exact ⟨plainSubscription, hopts⟩
  · trivial

theorem setup_get : ∃ r, SubscriptionStore.get (Run.final step start (setup {})).kv
    "projects/p/subscriptions/subA" = .ok r ∧ r.topic = "projects/p/topics/top1" := by
  have hget : ((SubscriptionStore.get (Run.final step start (setup {})).kv
      "projects/p/subscriptions/subA").toOption.map SubscriptionRecord.topic) =
      some "projects/p/topics/top1" := by
    decide +kernel
  obtain ⟨r, hr, htopic⟩ := Option.map_eq_some_iff.mp hget
  refine ⟨r, ?_, htopic⟩
  cases hg : SubscriptionStore.get (Run.final step start (setup {})).kv
      "projects/p/subscriptions/subA" with
  | error e =>
    rw [hg] at hr
    cases hr
  | ok r' =>
    rw [hg] at hr
    cases hr
    rfl

theorem export_writes_back_retry : ∃ p t,
    SubscriberService.getSubscription "projects/p/subscriptions/subA"
      (Run.final step start (setup {})) = .ok p (Run.final step start (setup {})) ∧
    SubscriberService.updateSubscription ⟨some p, some ["labels", "retry_policy"]⟩
      (Run.final step start (setup {})) = .ok p t := by
  obtain ⟨r, hr, _⟩ := setup_get
  obtain ⟨_, _, hback⟩ := export_writes_back (setup {}) fromRequest_setup
    "projects/p/subscriptions/subA" (subscriptionToProto r) _ (getSubscription_of_get hr)
    ["labels", "retry_policy"] (by decide)
  exact ⟨subscriptionToProto r, _, getSubscription_of_get hr, hback⟩

end Reads

section Clones

variable {s : Engine} {name new : String} {r : SubscriptionRecord} {topic : TopicRecord}

/-- The options that stand for the settings of the record. -/
def exportedOptions (r : SubscriptionRecord) : CreateSubscriptionOptions :=
  { ackDeadlineSecs := some r.ackDeadlineSecs
    retainAckedMessages := r.retainAckedMessages
    messageRetentionSecs := some r.messageRetentionSecs
    labels := r.labels
    enableMessageOrdering := r.enableMessageOrdering
    expirationTtlSecs := some r.expirationTtlSecs
    filter := r.filter
    deadLetterTopic := r.deadLetterTopic
    maxDeliveryAttempts := r.deadLetterTopic.map fun _ => r.maxDeliveryAttempts
    minRetryBackoffSecs := some r.minRetryBackoffSecs
    maxRetryBackoffSecs := some r.maxRetryBackoffSecs
    enableExactlyOnceDelivery := r.enableExactlyOnceDelivery
    pushConfig := r.pushConfig }

theorem Exportable.options (h : Exportable r) :
    createOptionsFromProto (subscriptionToProto r) = exportedOptions r := by
  have hack : r.ackDeadlineSecs ≠ 0 := by
    have := h.within.ackDeadline
    omega
  have hpush := pushConfigNamed_toProto h.push
  unfold createOptionsFromProto subscriptionToProto exportedOptions
  simp only [hpush, Option.map_some, Option.bind_some, durations_read_back, secsToDuration,
    durationToSecs, if_pos hack]
  cases r.deadLetterTopic <;> rfl

theorem Exportable.createMaxDeliveryAttempts (h : Exportable r) :
    ∃ n, SubscriptionStore.createMaxDeliveryAttempts (exportedOptions r) = .ok n ∧
      (r.deadLetterTopic ≠ none → n = r.maxDeliveryAttempts) := by
  unfold SubscriptionStore.createMaxDeliveryAttempts exportedOptions
  cases htop : r.deadLetterTopic with
  | none => exact ⟨0, rfl, fun hn => absurd rfl hn⟩
  | some topic =>
    have h0 : r.maxDeliveryAttempts ≠ 0 := h.attempts (by simp [htop])
    have hvalid : validateDeadLetterMaxAttempts r.maxDeliveryAttempts = .ok () := by
      unfold validateDeadLetterMaxAttempts
      rw [if_neg h0]
      exact validateRange_eq_ok.mpr (h.within.attempts.resolve_left h0)
    refine ⟨r.maxDeliveryAttempts, ?_, fun _ => rfl⟩
    simp [hvalid, h0, bind, Except.bind, pure, Except.pure]

theorem Exportable.checkOptions (h : Exportable r) (hnew : checkName "subscriptions" new = .ok ())
    {n : TopicName} (htopic : TopicName.parse r.topic = .ok n) :
    ∃ n, SubscriptionStore.checkOptions new r.topic (exportedOptions r) = .ok n ∧
      (r.deadLetterTopic ≠ none → n = r.maxDeliveryAttempts) := by
  obtain ⟨m, hm, hatt⟩ := h.createMaxDeliveryAttempts
  obtain ⟨parsed, hparsed, _⟩ := ResourceName.parse_eq_ok.mpr hnew
  have hack : validateAckDeadlineSecs r.ackDeadlineSecs = .ok () :=
    validateRange_eq_ok.mpr h.within.ackDeadline
  have hret : validateSubscriptionRetentionSecs r.messageRetentionSecs = .ok () :=
    validateRange_eq_ok.mpr h.within.retention
  have hmin : validateRetryBackoffSecs r.minRetryBackoffSecs = .ok () :=
    validateRange_eq_ok.mpr h.within.minBackoff
  have hmax : validateRetryBackoffSecs r.maxRetryBackoffSecs = .ok () :=
    validateRange_eq_ok.mpr h.within.maxBackoff
  refine ⟨m, ?_, hatt⟩
  unfold SubscriptionStore.checkOptions
  rw [hparsed, htopic, hm]
  simp [exportedOptions, hack, hret, h.filter, hmin, hmax, SubscriptionStore.optValidate, bind,
    Except.bind, pure, Except.pure]

/-- The wire form of a subscription after a clone of it was made under a new name. -/
def Proto.Subscription.cloned (p : Proto.Subscription) (new : String) : Proto.Subscription :=
  { p with name := new, detached := false }

theorem cloned_newRecord (r : SubscriptionRecord) (new : String) (topicId : Nat) (nowMs n : Int)
    (id : Nat) (hn : r.deadLetterTopic ≠ none → n = r.maxDeliveryAttempts) :
    subscriptionToProto (SubscriptionStore.newRecord new r.topic topicId nowMs (exportedOptions r)
      n id) = (subscriptionToProto r).cloned new := by
  unfold subscriptionToProto Proto.Subscription.cloned SubscriptionStore.newRecord exportedOptions
  simp only [Option.getD_some, Proto.Subscription.mk.injEq, true_and, and_true]
  cases htop : r.deadLetterTopic with
  | none => rfl
  | some topic => rw [hn (by simp [htop])]

theorem bind_mapErr_ok {α β : Type} {m : EngineM α} {s t : Engine} {x : α} (h : m s = .ok x t)
    (f : α → EStateM Status Engine β) : (mapErr m >>= f) s = f x t := by
  simp only [bind, EStateM.bind, mapErr_ok h]

theorem createSubscription_returns (hh : s.kv.Healthy) {opts : CreateSubscriptionOptions}
    (nowMs : Int) {n : Int} {topicName : String} (htopic : TopicStore.get s.kv topicName = .ok topic)
    (hopts : SubscriptionStore.checkOptions new topicName opts = .ok n)
    (hfree : s.kv.subNames.get new = none) :
    ∃ r' t, PubSubService.createSubscription new topicName opts nowMs s = .ok r' t ∧
      r' = SubscriptionStore.newRecord new topicName topic.id nowMs opts n (s.kv.counter + 1) ∧
      t.kv.subs = s.kv.subs.insert (s.kv.counter + 1) r' ∧
      t.kv.subNames = s.kv.subNames.insert new (s.kv.counter + 1) := by
  refine Ensures.returns ?_
  simp only [PubSubService.createSubscription, onKv, ensures_focus, SubscriptionStore.create,
    ensures_bind, ensures_liftResult, ensures_estateGet, ensures_get, ensures_ite, ensures_throw,
    htopic, hopts, hfree, nextId, putIdSeq, SubscriptionStore.persist, putSub, putSubName,
    putCursor, putIdx, ensures_pure]
  refine ⟨fun t ht => ?_, fun e he => (by cases he)⟩
  cases ht
  refine ⟨fun m hm => ⟨fun hsome => (by cases hsome), fun _ => ?_⟩, fun e he => (by cases he)⟩
  cases hm
  refine (ensures_kvWrite_healthy hh).mpr ((ensures_kvWrite_healthy ?_).mpr
    ((ensures_kvWrite_healthy ?_).mpr ((ensures_kvWrite_healthy ?_).mpr
      ((ensures_kvWrite_healthy ?_).mpr ?_))))
  · exact fun n => hh n
  · exact fun n => hh n
  · exact fun n => hh n
  · exact fun n => hh n
  · exact ⟨rfl, rfl, rfl⟩

/-- Whatever a run of requests left, the export of a subscription whose topic is still there
creates a subscription under any free name: the checks pass, the reply has the settings of
the original and is not detached, and reading either one back gives its settings. -/
theorem export_clones (is : List Input) (h : ∀ i ∈ is, FromRequest i.op) (name : String)
    (p : Proto.Subscription) (s' : Engine)
    (hget : SubscriberService.getSubscription name (Run.final step start is) = .ok p s')
    (topic : TopicRecord)
    (htopic : TopicStore.get (Run.final step start is).kv p.topic = .ok topic) (new : String)
    (hnew : checkName "subscriptions" new = .ok ())
    (hfree : (Run.final step start is).kv.subNames.get new = none) (nowMs : Int) :
    ∃ t, SubscriberService.createSubscription { p with name := new } nowMs s' =
        .ok (p.cloned new) t ∧
      SubscriberService.getSubscription new t = .ok (p.cloned new) t ∧
      SubscriberService.getSubscription name t = .ok p t := by
  obtain ⟨rfl, r, hr, rfl⟩ := getSubscription_eq_ok hget
  have hall := allExportable_final h
  have hc := hall.consistent
  have hnamed := named_of_get hc hall.healthy hr
  have hexp := hall.exportable hnamed.row
  have hopts : createOptionsFromProto { subscriptionToProto r with name := new } =
      exportedOptions r := hexp.options
  obtain ⟨parsed, hparsed⟩ : ∃ parsed, TopicName.parse r.topic = .ok parsed := by
    obtain ⟨id, hid, _, _⟩ := topicGet_eq_ok htopic
    obtain ⟨parsed, hparsed, _⟩ := bind_eq_ok.mp hid
    exact ⟨parsed, hparsed⟩
  obtain ⟨n, hn, hatt⟩ := hexp.checkOptions hnew hparsed
  obtain ⟨r', t, hrun, hr', hsubs, hnames⟩ :=
    createSubscription_returns hall.healthy nowMs htopic hn hfree
  have hproto : subscriptionToProto r' = (subscriptionToProto r).cloned new := by
    rw [hr']
    exact cloned_newRecord r new topic.id nowMs n _ hatt
  have hnew' : SubscriptionStore.get t.kv new = .ok r' := by
    unfold SubscriptionStore.get SubscriptionStore.load
    rw [hnames, hsubs, SortedMap.get_insert_self]
    simp only
    rw [SortedMap.get_insert_self]
  have hold : SubscriptionStore.get t.kv name = .ok r := by
    have hne : name ≠ new := by
      rintro rfl
      rw [hnamed.named] at hfree
      cases hfree
    have hknown : r.id ≤ (Run.final step start is).kv.counter := by
      refine hc.sub_known ?_
      rw [hnamed.row]
      rfl
    have hid : r.id ≠ (Run.final step start is).kv.counter + 1 := by omega
    unfold SubscriptionStore.get SubscriptionStore.load
    rw [hnames, hsubs, SortedMap.get_insert_ne _ _ hne, hnamed.named]
    simp only
    rw [SortedMap.get_insert_ne _ _ hid, hnamed.row]
  refine ⟨t, ?_, ?_, getSubscription_of_get hold⟩
  · rw [← hproto]
    unfold SubscriberService.createSubscription
    rw [hopts]
    exact bind_mapErr_ok hrun _
  · rw [← hproto]
    exact getSubscription_of_get hnew'

theorem export_clones_subC : ∃ p t,
    SubscriberService.getSubscription "projects/p/subscriptions/subA"
      (Run.final step start (setup {})) = .ok p (Run.final step start (setup {})) ∧
    SubscriberService.createSubscription { p with name := "projects/p/subscriptions/subC" } 5
      (Run.final step start (setup {})) = .ok (p.cloned "projects/p/subscriptions/subC") t := by
  obtain ⟨r, hr, hname⟩ := setup_get
  obtain ⟨topic, htopic⟩ : ∃ topic, TopicStore.get (Run.final step start (setup {})).kv
      (subscriptionToProto r).topic = .ok topic := by
    have hsome : (TopicStore.get (Run.final step start (setup {})).kv
        "projects/p/topics/top1").toOption.isSome = true := by
      decide +kernel
    rw [show (subscriptionToProto r).topic = "projects/p/topics/top1" from hname]
    cases ht : TopicStore.get (Run.final step start (setup {})).kv "projects/p/topics/top1" with
    | error e =>
      rw [ht] at hsome
      cases hsome
    | ok topic => exact ⟨topic, rfl⟩
  obtain ⟨t, hclone, _⟩ := export_clones (setup {}) fromRequest_setup
    "projects/p/subscriptions/subA" (subscriptionToProto r) _ (getSubscription_of_get hr) topic
    htopic "projects/p/subscriptions/subC" (by decide +kernel) (by decide +kernel) 5
  exact ⟨subscriptionToProto r, t, getSubscription_of_get hr, hclone⟩

end Clones

end OpenPubusb
