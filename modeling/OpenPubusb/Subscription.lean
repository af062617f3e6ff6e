import OpenPubusb.Topic

/-! Subscription records: validation, persistence and lookups. Every update
reads the whole record, changes it and writes it back with its name row. -/

namespace OpenPubusb

structure CreateSubscriptionOptions where
  ackDeadlineSecs : Option Int := none
  retainAckedMessages : Bool := false
  messageRetentionSecs : Option Int := none
  labels : SortedMap String String := ∅
  enableMessageOrdering : Bool := false
  /-- `none` takes the default of 31 days, `some none` disables expiry. -/
  expirationTtlSecs : Option (Option Int) := none
  filter : String := ""
  deadLetterTopic : Option String := none
  maxDeliveryAttempts : Option Int := none
  minRetryBackoffSecs : Option Int := none
  maxRetryBackoffSecs : Option Int := none
  enableExactlyOnceDelivery : Bool := false
  pushConfig : Option PushConfig := none
  hasBigqueryConfig : Bool := false
  hasCloudStorageConfig : Bool := false

structure SubscriptionUpdatePatch where
  ackDeadlineSecs : Option Int := none
  retainAckedMessages : Option Bool := none
  messageRetentionSecs : Option Int := none
  labels : Option (SortedMap String String) := none
  expirationTtlSecs : Option (Option Int) := none
  deadLetterTopic : Option (Option String) := none
  maxDeliveryAttempts : Option Int := none
  minRetryBackoffSecs : Option Int := none
  maxRetryBackoffSecs : Option Int := none
  detached : Option Bool := none
  enableExactlyOnceDelivery : Option Bool := none
  pushConfig : Option (Option PushConfig) := none

namespace SubscriptionStore

def load (kv : Kv) (id : Nat) (resourceForErr : String) : Result SubscriptionRecord :=
  match kv.subs.get id with
  | none => .error (.notFound resourceForErr)
  | some r => .ok r

def get (kv : Kv) (fullName : String) : Result SubscriptionRecord :=
  match kv.subNames.get fullName with
  | none => .error (.notFound fullName)
  | some id => load kv id fullName

/-- The id after `current`, as `SubscriptionStore::next_id` computes it. -/
def idAfter (current : Nat) : Result Nat :=
  match succU64 current with
  | some next => .ok next
  | none => .error (.resourceExhausted "subscription id space exhausted")

theorem idAfter_of_lt {n : Nat} (h : n < u64Max) : idAfter n = .ok (n + 1) := by
  rw [idAfter, succU64_eq h]

def persist (record : SubscriptionRecord) : KvM Unit := do
  putSub record.id record
  putSubName record.name record.id

def optValidate (v : Option Int) (validate : Int → Result Unit) : Result Unit :=
  match v with
  | some v => validate v
  | none => .ok ()

/-- `max_delivery_attempts` is only looked at when a dead-letter topic is
set, and `0` then takes the default of 5. -/
def createMaxDeliveryAttempts (opts : CreateSubscriptionOptions) : Result Int :=
  if opts.deadLetterTopic.isSome then do
    let requested := opts.maxDeliveryAttempts.getD 0
    validateDeadLetterMaxAttempts requested
    pure (if requested = 0 then 5 else requested)
  else .ok 0

/-- The checks of `create` on its arguments; the result is the number of
delivery attempts to store. -/
def checkOptions (fullName topicFullName : String) (opts : CreateSubscriptionOptions) :
    Result Int := do
  let _ ← ResourceName.parse "subscriptions" fullName
  let _ ← TopicName.parse topicFullName
  if opts.hasBigqueryConfig then
    throw (.invalidArgument "bigquery_config" "bigquery_config is not supported by this server")
  if opts.hasCloudStorageConfig then
    throw (.invalidArgument "cloud_storage_config"
      "cloud_storage_config is not supported by this server")
  validateAckDeadlineSecs (opts.ackDeadlineSecs.getD 10)
  validateSubscriptionRetentionSecs (opts.messageRetentionSecs.getD 604800)
  validateFilterLen opts.filter
  let maxDeliveryAttempts ← createMaxDeliveryAttempts opts
  optValidate opts.minRetryBackoffSecs validateRetryBackoffSecs
  optValidate opts.maxRetryBackoffSecs validateRetryBackoffSecs
  pure maxDeliveryAttempts

def newRecord (fullName topicFullName : String) (topicId : Nat) (nowMs : Int)
    (opts : CreateSubscriptionOptions) (maxDeliveryAttempts : Int) (subId : Nat) :
    SubscriptionRecord :=
  { id := subId
    name := fullName
    topic := topicFullName
    topicId := topicId
    ackDeadlineSecs := opts.ackDeadlineSecs.getD 10
    retainAckedMessages := opts.retainAckedMessages
    messageRetentionSecs := opts.messageRetentionSecs.getD 604800
    labels := opts.labels
    enableMessageOrdering := opts.enableMessageOrdering
    expirationTtlSecs := opts.expirationTtlSecs.getD (some (31 * 24 * 3600))
    filter := opts.filter
    deadLetterTopic := opts.deadLetterTopic
    maxDeliveryAttempts := maxDeliveryAttempts
    minRetryBackoffSecs := opts.minRetryBackoffSecs.getD 10
    maxRetryBackoffSecs := opts.maxRetryBackoffSecs.getD 600
    retryPolicyExplicit := opts.minRetryBackoffSecs.isSome || opts.maxRetryBackoffSecs.isSome
    detached := false
    enableExactlyOnceDelivery := opts.enableExactlyOnceDelivery
    pushConfig := opts.pushConfig
    lastActivityTsMs := nowMs }

def create (fullName topicFullName : String) (topicId attachSeq : Nat) (nowMs : Int)
    (opts : CreateSubscriptionOptions) : KvM SubscriptionRecord := do
  let maxDeliveryAttempts ← liftResult (checkOptions fullName topicFullName opts)
  let kv ← EStateM.get
  if (kv.subNames.get fullName).isSome then throw (.alreadyExists fullName)
  else
    let subId ← nextId
    let record := newRecord fullName topicFullName topicId nowMs opts maxDeliveryAttempts subId
    persist record
    putCursor subId (.fresh attachSeq attachSeq)
    putIdx topicId subId
    pure record

def listByTopicId (kv : Kv) (topicId : Nat) : List Nat := (scanPrefix kv.idx topicId).map Prod.fst

def listAll (kv : Kv) : List SubscriptionRecord := kv.subs.entries.map Prod.snd

def list (kv : Kv) (projectId : String) (pageSize : Nat) (pageToken : Option String) :
    Result (List SubscriptionRecord × Option String) := do
  let start := s!"projects/{projectId}/subscriptions/"
  let names := kv.subNames.keys.filter (fun n => startsWith n start)
  let startAt :=
    match pageToken with
    | some token => (names.findIdx? (fun n => token < n)).getD names.length
    | none => 0
  let stop := if pageSize = 0 then names.length else min (startAt + pageSize) names.length
  let records ← ((names.drop startAt).take (stop - startAt)).mapM (get kv)
  pure (records, if stop < names.length then names[stop - 1]? else none)

def checkPatch (patch : SubscriptionUpdatePatch) : Result Unit := do
  optValidate patch.ackDeadlineSecs validateAckDeadlineSecs
  optValidate patch.messageRetentionSecs validateSubscriptionRetentionSecs
  optValidate patch.maxDeliveryAttempts validateDeadLetterMaxAttempts
  optValidate patch.minRetryBackoffSecs validateRetryBackoffSecs
  optValidate patch.maxRetryBackoffSecs validateRetryBackoffSecs

/-- A patched `max_delivery_attempts` of `0` takes the default of 5. -/
def patched (record : SubscriptionRecord) (patch : SubscriptionUpdatePatch) :
    SubscriptionRecord :=
  { record with
    ackDeadlineSecs := patch.ackDeadlineSecs.getD record.ackDeadlineSecs
    retainAckedMessages := patch.retainAckedMessages.getD record.retainAckedMessages
    messageRetentionSecs := patch.messageRetentionSecs.getD record.messageRetentionSecs
    labels := patch.labels.getD record.labels
    expirationTtlSecs := patch.expirationTtlSecs.getD record.expirationTtlSecs
    deadLetterTopic := patch.deadLetterTopic.getD record.deadLetterTopic
    maxDeliveryAttempts :=
      match patch.maxDeliveryAttempts with
      | some v => if v = 0 then 5 else v
      | none => record.maxDeliveryAttempts
    minRetryBackoffSecs := patch.minRetryBackoffSecs.getD record.minRetryBackoffSecs
    maxRetryBackoffSecs := patch.maxRetryBackoffSecs.getD record.maxRetryBackoffSecs
    retryPolicyExplicit := record.retryPolicyExplicit || patch.minRetryBackoffSecs.isSome ||
      patch.maxRetryBackoffSecs.isSome
    detached := patch.detached.getD record.detached
    enableExactlyOnceDelivery :=
      patch.enableExactlyOnceDelivery.getD record.enableExactlyOnceDelivery
    pushConfig := patch.pushConfig.getD record.pushConfig }

def update (fullName : String) (patch : SubscriptionUpdatePatch) : KvM SubscriptionRecord := do
  let kv ← EStateM.get
  let record ← liftResult (get kv fullName)
  liftResult (checkPatch patch)
  persist (patched record patch)
  pure (patched record patch)

def setTopicToDeleted (subId : Nat) : KvM Unit := do
  let kv ← EStateM.get
  let record ← liftResult (load kv subId s!"sub_id={subId}")
  persist { record with topic := deletedTopic }

def touch (subId : Nat) (nowMs : Int) : KvM Unit := do
  let kv ← EStateM.get
  match load kv subId s!"sub_id={subId}" with
  | .error _ => pure ()
  | .ok record => persist { record with lastActivityTsMs := nowMs }

def detach (fullName : String) : KvM Unit := do
  let kv ← EStateM.get
  let record ← liftResult (get kv fullName)
  persist { record with detached := true }

def setPushConfig (fullName : String) (pushConfig : Option PushConfig) : KvM Unit := do
  let kv ← EStateM.get
  let record ← liftResult (get kv fullName)
  persist { record with pushConfig := pushConfig }

def delete (fullName : String) : KvM Unit := do
  let kv ← EStateM.get
  let record ← liftResult (get kv fullName)
  deleteSubRow record.id
  deleteSubName record.name
  deleteCursor record.id
  deleteIdx record.topicId record.id

def isExpired (record : SubscriptionRecord) (nowMs : Int) : Bool :=
  match record.expirationTtlSecs with
  | none => false
  | some ttlSecs => satAddI64 record.lastActivityTsMs (satMulI64 ttlSecs 1000) ≤ nowMs

def sweepRecords (nowMs : Int) : List SubscriptionRecord → KvM (List String)
  | [] => pure []
  | r :: rs =>
    if isExpired r nowMs then do
      delete r.name
      let removed ← sweepRecords nowMs rs
      pure (r.name :: removed)
    else sweepRecords nowMs rs

def sweepExpired (nowMs : Int) : KvM (List String) := do
  let kv ← EStateM.get
  sweepRecords nowMs (listAll kv)

end SubscriptionStore

end OpenPubusb
