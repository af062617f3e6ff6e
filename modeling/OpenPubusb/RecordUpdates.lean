import OpenPubusb.PolicyFields

/-! The writers of subscription records: an update is applied as a whole or not
at all, and no writer leaves a number outside of its range. -/

namespace OpenPubusb

open Hoare

/-- A call of one of the writers of a record. -/
inductive RecordCall where
  | create (fullName topicFullName : String) (topicId attachSeq : Nat) (nowMs : Int)
      (opts : CreateSubscriptionOptions)
  | update (fullName : String) (patch : SubscriptionUpdatePatch)
  | touch (subId : Nat) (nowMs : Int)
  | detach (fullName : String)
  | setPushConfig (fullName : String) (pushConfig : Option PushConfig)

def RecordCall.run : RecordCall → KvM Unit
  | .create name topic topicId attachSeq nowMs opts => do
    let _ ← SubscriptionStore.create name topic topicId attachSeq nowMs opts
    pure ()
  | .update name patch => do
    let _ ← SubscriptionStore.update name patch
    pure ()
  | .touch subId nowMs => SubscriptionStore.touch subId nowMs
  | .detach name => SubscriptionStore.detach name
  | .setPushConfig name pushConfig => SubscriptionStore.setPushConfig name pushConfig

/-- One call after another; a failed call leaves what it wrote. -/
def recordStep (kv : Kv) (c : RecordCall) : Result Unit × Kv :=
  match c.run kv with
  | .ok _ kv' => (.ok (), kv')
  | .error e kv' => (.error e, kv')

section Ranges

/-- The ranges of the numbers in a record. -/
structure WithinRanges (r : SubscriptionRecord) : Prop where
  ackDeadline : 10 ≤ r.ackDeadlineSecs ∧ r.ackDeadlineSecs ≤ 600
  retention : 600 ≤ r.messageRetentionSecs ∧ r.messageRetentionSecs ≤ 604800
  minBackoff : 0 ≤ r.minRetryBackoffSecs ∧ r.minRetryBackoffSecs ≤ 600
  maxBackoff : 0 ≤ r.maxRetryBackoffSecs ∧ r.maxRetryBackoffSecs ≤ 600
  attempts : r.maxDeliveryAttempts = 0 ∨ 5 ≤ r.maxDeliveryAttempts ∧ r.maxDeliveryAttempts ≤ 100

theorem getD_of_checked {α : Type} {P : α → Prop} {named : Option α} {old : α}
    (h : ∀ v, named = some v → P v) (hold : P old) : P (named.getD old) := by
  cases hn : named with
  | none => exact hold
  | some v => exact h v hn

theorem within_newRecord {name topic : String} {opts : CreateSubscriptionOptions} {topicId : Nat}
    {nowMs n : Int} {id : Nat} (h : SubscriptionStore.checkOptions name topic opts = .ok n) :
    WithinRanges (SubscriptionStore.newRecord name topic topicId nowMs opts n id) := by
  obtain ⟨hack, hatt, hret, hmin, hmax⟩ := checkOptions_eq_ok h
  obtain ⟨hoff, hon⟩ := createMaxDeliveryAttempts_eq_ok hatt
  have hbackoff : ∀ {v : Int}, validateRetryBackoffSecs v = .ok () → 0 ≤ v ∧ v ≤ 600 :=
    fun hv => validateRange_eq_ok.mp hv
  refine ⟨validateRange_eq_ok.mp hack, validateRange_eq_ok.mp hret, ?_, ?_, ?_⟩
  · exact getD_of_checked (P := fun v : Int => 0 ≤ v ∧ v ≤ 600) (fun v hv => hbackoff (hmin v hv))
      (by decide)
  · exact getD_of_checked (P := fun v : Int => 0 ≤ v ∧ v ≤ 600) (fun v hv => hbackoff (hmax v hv))
      (by decide)
  · by_cases ht : opts.deadLetterTopic = none
    · exact Or.inl (hoff ht)
    · exact Or.inr (hon ht)

theorem within_patched {r : SubscriptionRecord} {patch : SubscriptionUpdatePatch}
    (hr : WithinRanges r) (h : SubscriptionStore.checkPatch patch = .ok ()) :
    WithinRanges (SubscriptionStore.patched r patch) := by
  obtain ⟨hack, _, hret, hmin, hmax⟩ := checkPatch_eq_ok h
  obtain ⟨hsame, hnew⟩ := patched_maxDeliveryAttempts (r := r) h
  refine ⟨?_, ?_, ?_, ?_, ?_⟩
  · exact getD_of_checked (P := fun v : Int => 10 ≤ v ∧ v ≤ 600)
      (fun v hv => validateRange_eq_ok.mp (hack v hv)) hr.ackDeadline
  · exact getD_of_checked (P := fun v : Int => 600 ≤ v ∧ v ≤ 604800)
      (fun v hv => validateRange_eq_ok.mp (hret v hv)) hr.retention
  · exact getD_of_checked (P := fun v : Int => 0 ≤ v ∧ v ≤ 600)
      (fun v hv => validateRange_eq_ok.mp (hmin v hv)) hr.minBackoff
  · exact getD_of_checked (P := fun v : Int => 0 ≤ v ∧ v ≤ 600)
      (fun v hv => validateRange_eq_ok.mp (hmax v hv)) hr.maxBackoff
  · by_cases hn : patch.maxDeliveryAttempts = none
    · rw [hsame hn]
      exact hr.attempts
    · exact Or.inr (hnew hn)

end Ranges

section Writers

/-- What a run of the writers keeps. -/
structure RecordsKept (kv : Kv) : Prop where
  consistent : Consistent kv
  healthy : kv.Healthy
  within : ∀ id r, kv.subs.get id = some r → WithinRanges r

theorem recordsKept_empty : RecordsKept .empty := by
  refine ⟨consistent_empty, fun _ => rfl, fun id r hr => ?_⟩
  cases hr

variable {kv : Kv}

theorem RecordsKept.insert (h : RecordsKept kv) {kv' : Kv} (hev : Evolves kv kv') {id : Nat}
    {r : SubscriptionRecord} (hsubs : kv'.subs = kv.subs.insert id r) (hr : WithinRanges r) :
    RecordsKept kv' := by
  refine ⟨hev.consistent, hev.healthy h.healthy, fun i x hx => ?_⟩
  rw [hsubs, SortedMap.get_insert] at hx
  split_ifs at hx
  · cases hx
    exact hr
  · exact h.within i x hx

theorem ensures_persist_kept (h : RecordsKept kv) {id : Nat} {r r' : SubscriptionRecord}
    (hr : kv.subs.get id = some r) (hkey : identity r' = identity r) (hin : WithinRanges r') :
    Ensures (SubscriptionStore.persist r') kv (fun _ kv' => RecordsKept kv' ∧
      kv' = { kv with subs := kv.subs.insert id r', writes := kv'.writes }) (fun _ _ => False) := by
  have hid : r'.id = id := (congrArg Prod.fst hkey).trans (h.consistent.subs.record hr).2
  have hnames : kv.subNames.insert r'.name r'.id = kv.subNames :=
    SortedMap.ext_get (persist_rows h.consistent hr hkey).2
  rw [hid] at hnames
  have hh := h.healthy
  have hkept := h.insert (evolves_persist h.consistent hr hkey (kv.writes + 2)) rfl hin
  simp only [SubscriptionStore.persist, ensures_bind, putSub, putSubName]
  refine (ensures_kvWrite_healthy hh).mpr ((ensures_kvWrite_healthy ?_).mpr ⟨?_, ?_⟩)
  · exact fun n => hh n
  · exact hkept
  · simp only [Kv.tick, hid, hnames]

theorem ensures_create_kept (h : RecordsKept kv) (name topic : String) (topicId attachSeq : Nat)
    (nowMs : Int) (opts : CreateSubscriptionOptions) :
    Ensures (SubscriptionStore.create name topic topicId attachSeq nowMs opts) kv
      (fun _ kv' => RecordsKept kv') (fun _ kv' => RecordsKept kv') := by
  have hh := h.healthy
  simp only [SubscriptionStore.create, ensures_bind, ensures_liftResult, ensures_estateGet,
    ensures_ite, ensures_throw]
  refine ⟨fun n hn => ⟨fun _ => h, fun hname => ?_⟩, fun _ _ => h⟩
  rw [Option.not_isSome_iff_eq_none] at hname
  simp only [nextId, SubscriptionStore.persist, putIdSeq, putSub, putSubName, putCursor, putIdx,
    ensures_bind, ensures_get, ensures_pure]
  have hev : ∀ w, Evolves kv _ := evolves_createSubscription h.consistent
    (r := SubscriptionStore.newRecord name topic topicId nowMs opts n (kv.counter + 1)) hname rfl
    (.fresh attachSeq attachSeq)
  refine (ensures_kvWrite_healthy hh).mpr ((ensures_kvWrite_healthy ?_).mpr
    ((ensures_kvWrite_healthy ?_).mpr ((ensures_kvWrite_healthy ?_).mpr
      ((ensures_kvWrite_healthy ?_).mpr ?_))))
  · exact fun n => hh n
  · exact fun n => hh n
  · exact fun n => hh n
  · exact fun n => hh n
  · exact h.insert (hev (kv.writes + 5)) rfl (within_newRecord hn)

theorem ensures_named_kept (h : RecordsKept kv) (name : String)
    {f : SubscriptionRecord → SubscriptionRecord} (hkey : ∀ r, identity (f r) = identity r)
    (hf : ∀ r, WithinRanges r → WithinRanges (f r)) :
    Ensures (EStateM.get >>= fun kv => liftResult (SubscriptionStore.get kv name) >>=
      fun r => SubscriptionStore.persist (f r)) kv (fun _ kv' => RecordsKept kv')
      (fun _ kv' => RecordsKept kv') := by
  simp only [ensures_bind, ensures_estateGet, ensures_liftResult]
  refine ⟨fun r hr => ?_, fun _ _ => h⟩
  obtain ⟨id, _, hs⟩ := get_eq_ok hr
  exact (ensures_persist_kept h hs (hkey r) (hf r (h.within id r hs))).mono (fun _ _ hk => hk.1)
    (fun _ _ hk => hk.elim)

/-- What an update leaves: the record under its name, changed by the patch, and no other
difference; or nothing. -/
theorem ensures_update_kept (h : RecordsKept kv) (name : String) (patch : SubscriptionUpdatePatch) :
    Ensures (SubscriptionStore.update name patch) kv
      (fun r' kv' => RecordsKept kv' ∧ ∃ id r, kv.subNames.get name = some id ∧
        kv.subs.get id = some r ∧ r' = SubscriptionStore.patched r patch ∧
        kv' = { kv with subs := kv.subs.insert id r', writes := kv'.writes })
      (fun _ kv' => kv' = kv) := by
  simp only [SubscriptionStore.update, ensures_bind, ensures_estateGet, ensures_liftResult,
    ensures_pure]
  refine ⟨fun r hr => ⟨fun _ hpatch => ?_, fun _ _ => trivial⟩, fun _ _ => trivial⟩
  obtain ⟨id, hn, hs⟩ := get_eq_ok hr
  have hin := within_patched (h.within id r hs) hpatch
  have hkey : identity (SubscriptionStore.patched r patch) = identity r := rfl
  refine (ensures_persist_kept h hs hkey hin).mono (fun _ kv' hk => ?_) (fun _ _ hk => hk.elim)
  exact ⟨hk.1, id, r, hn, hs, rfl, hk.2⟩

theorem RecordsKept.step (h : RecordsKept kv) (c : RecordCall) :
    RecordsKept (recordStep kv c).2 := by
  have hrun : Ensures c.run kv (fun _ kv' => RecordsKept kv') (fun _ kv' => RecordsKept kv') := by
    cases c with
    | create name topic topicId attachSeq nowMs opts =>
      simp only [RecordCall.run, ensures_bind, ensures_pure]
      exact ensures_create_kept h name topic topicId attachSeq nowMs opts
    | update name patch =>
      simp only [RecordCall.run, ensures_bind, ensures_pure]
      exact (ensures_update_kept h name patch).mono (fun _ _ hk => hk.1) (fun _ _ hk => hk ▸ h)
    | touch subId nowMs =>
      simp only [RecordCall.run, SubscriptionStore.touch, ensures_bind, ensures_estateGet]
      cases hl : SubscriptionStore.load kv subId s!"sub_id={subId}" with
      | error e => exact h
      | ok r =>
        have hs := load_eq_ok hl
        have hin := h.within subId r hs
        have hin' : WithinRanges { r with lastActivityTsMs := nowMs } :=
          ⟨hin.ackDeadline, hin.retention, hin.minBackoff, hin.maxBackoff, hin.attempts⟩
        have hkey : identity { r with lastActivityTsMs := nowMs } = identity r := rfl
        exact (ensures_persist_kept h hs hkey hin').mono (fun _ _ hk => hk.1)
          (fun _ _ hk => hk.elim)
    | detach name =>
      exact ensures_named_kept h name (f := fun r => { r with detached := true }) (fun _ => rfl)
        fun _ hin => ⟨hin.ackDeadline, hin.retention, hin.minBackoff, hin.maxBackoff, hin.attempts⟩
    | setPushConfig name pushConfig =>
      exact ensures_named_kept h name (f := fun r => { r with pushConfig := pushConfig })
        (fun _ => rfl) fun _ hin =>
          ⟨hin.ackDeadline, hin.retention, hin.minBackoff, hin.maxBackoff, hin.attempts⟩
  unfold recordStep
  cases hc : c.run kv with
  | ok u kv' => exact hrun.of_ok hc
  | error e kv' => exact hrun.of_error hc

theorem recordsKept_final (calls : List RecordCall) :
    RecordsKept (Run.final recordStep .empty calls) :=
  Run.inv_final (C := fun _ => True) (fun _ c h _ => h.step c) recordsKept_empty fun _ _ => trivial

end Writers

section Patch

def Follows {α : Type} (named : Option α) (old new : α) : Prop :=
  (named = none → new = old) ∧ ∀ v, named = some v → new = v

theorem follows_getD {α : Type} (named : Option α) (old : α) :
    Follows named old (named.getD old) := by
  cases named with
  | none => exact ⟨fun _ => rfl, nofun⟩
  | some v => exact ⟨nofun, fun _ hv => Option.some.inj hv⟩

/-- The record `r'` is `r` with the fields that the patch names. A number of attempts of `0`
stands for the default. -/
structure PatchApplied (patch : SubscriptionUpdatePatch) (r r' : SubscriptionRecord) : Prop where
  ackDeadlineSecs : Follows patch.ackDeadlineSecs r.ackDeadlineSecs r'.ackDeadlineSecs
  retainAckedMessages :
    Follows patch.retainAckedMessages r.retainAckedMessages r'.retainAckedMessages
  messageRetentionSecs :
    Follows patch.messageRetentionSecs r.messageRetentionSecs r'.messageRetentionSecs
  labels : Follows patch.labels r.labels r'.labels
  expirationTtlSecs : Follows patch.expirationTtlSecs r.expirationTtlSecs r'.expirationTtlSecs
  deadLetterTopic : Follows patch.deadLetterTopic r.deadLetterTopic r'.deadLetterTopic
  maxDeliveryAttempts : Follows (patch.maxDeliveryAttempts.map fun v => if v = 0 then 5 else v)
    r.maxDeliveryAttempts r'.maxDeliveryAttempts
  minRetryBackoffSecs :
    Follows patch.minRetryBackoffSecs r.minRetryBackoffSecs r'.minRetryBackoffSecs
  maxRetryBackoffSecs :
    Follows patch.maxRetryBackoffSecs r.maxRetryBackoffSecs r'.maxRetryBackoffSecs
  detached : Follows patch.detached r.detached r'.detached
  enableExactlyOnceDelivery : Follows patch.enableExactlyOnceDelivery
    r.enableExactlyOnceDelivery r'.enableExactlyOnceDelivery
  pushConfig : Follows patch.pushConfig r.pushConfig r'.pushConfig
  retryPolicyExplicit : r'.retryPolicyExplicit = true ↔ r.retryPolicyExplicit = true ∨
    patch.minRetryBackoffSecs ≠ none ∨ patch.maxRetryBackoffSecs ≠ none
  untouched : r'.id = r.id ∧ r'.name = r.name ∧ r'.topic = r.topic ∧ r'.topicId = r.topicId ∧
    r'.filter = r.filter ∧ r'.enableMessageOrdering = r.enableMessageOrdering ∧
    r'.lastActivityTsMs = r.lastActivityTsMs

theorem patchApplied_patched (patch : SubscriptionUpdatePatch) (r : SubscriptionRecord) :
    PatchApplied patch r (SubscriptionStore.patched r patch) where
  ackDeadlineSecs := follows_getD _ _
  retainAckedMessages := follows_getD _ _
  messageRetentionSecs := follows_getD _ _
  labels := follows_getD _ _
  expirationTtlSecs := follows_getD _ _
  deadLetterTopic := follows_getD _ _
  maxDeliveryAttempts := by
    unfold SubscriptionStore.patched
    cases patch.maxDeliveryAttempts with
    | none => exact ⟨fun _ => rfl, nofun⟩
    | some v => exact ⟨nofun, fun _ hv => Option.some.inj hv⟩
  minRetryBackoffSecs := follows_getD _ _
  maxRetryBackoffSecs := follows_getD _ _
  detached := follows_getD _ _
  enableExactlyOnceDelivery := follows_getD _ _
  pushConfig := follows_getD _ _
  retryPolicyExplicit := by
    simp only [SubscriptionStore.patched, Bool.or_eq_true, or_assoc, Option.isSome_iff_ne_none]
  untouched := ⟨rfl, rfl, rfl, rfl, rfl, rfl, rfl⟩

theorem updates_all_or_nothing (calls : List RecordCall) :
    let kv := Run.final recordStep .empty calls
    (∀ id r, kv.subs.get id = some r → WithinRanges r) ∧
    (∀ name patch e kv', SubscriptionStore.update name patch kv = .error e kv' → kv' = kv) ∧
    ∀ name patch r' kv', SubscriptionStore.update name patch kv = .ok r' kv' →
      ∃ id r, kv.subNames.get name = some id ∧ kv.subs.get id = some r ∧
        PatchApplied patch r r' ∧
        kv' = { kv with subs := kv.subs.insert id r', writes := kv'.writes } := by
  intro kv
  have hkept : RecordsKept kv := recordsKept_final calls
  refine ⟨hkept.within, fun name patch e kv' hrun => ?_, fun name patch r' kv' hrun => ?_⟩
  · exact (ensures_update_kept hkept name patch).of_error hrun
  · obtain ⟨_, id, r, hn, hr, rfl, hkv⟩ := (ensures_update_kept hkept name patch).of_ok hrun
    exact ⟨id, r, hn, hr, patchApplied_patched patch r, hkv⟩

end Patch

end OpenPubusb
