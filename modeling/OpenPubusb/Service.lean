import OpenPubusb.Engine

/-! `PubSubService`, the entry point of the transport layers. The clock is an
argument of the operations that read it. -/

namespace OpenPubusb

/-- The inner loop of the retention sweep over the subscriptions of a topic. -/
def dropDeliveryRows (seq : Nat) : List Nat → KvM Unit
  | [] => pure ()
  | subId :: subIds => do
    Hoare.ignore (deleteDlv subId seq)
    dropDeliveryRows seq subIds

/-- The loop of `sweep_expired_messages`; the result counts deleted rows. -/
def sweepMessages (nowMs : Int) : List (RowKey × MessageRecord) → KvM Nat
  | [] => pure 0
  | (key, record) :: rows =>
    if record.expireAtMs > nowMs then sweepMessages nowMs rows
    else do
      let deleted ← Hoare.succeeds (deleteMsg key.id key.seq)
      if deleted then
        let kv ← get
        dropDeliveryRows key.seq (SubscriptionStore.listByTopicId kv key.id)
        let n ← sweepMessages nowMs rows
        pure (n + 1)
      else sweepMessages nowMs rows

def sweepExpiredMessages (nowMs : Int) : KvM Nat := do
  let kv ← get
  sweepMessages nowMs kv.msg.entries

/-- A message as the API returns it. -/
structure PulledMessage where
  ackId : String
  messageId : String
  data : List UInt8
  attributes : Attributes
  orderingKey : String
  publishTimeMs : Int
  deliveryAttempt : Nat

def PulledMessage.ofDelivered (exposeAttempt : Bool) (d : Delivered) : PulledMessage :=
  { ackId := d.ackId
    messageId := Nat.repr d.seq
    data := d.message.payload
    attributes := d.message.attributes
    orderingKey := d.message.orderingKey
    publishTimeMs := d.message.publishTsMs
    deliveryAttempt := if exposeAttempt then d.deliveryAttempt else 0 }

namespace PubSubService

def createTopic (fullName : String) (labels : SortedMap String String)
    (messageRetentionSecs : Option Int) (kmsKeyName : Option String)
    (hasSchemaSettings hasIngestionSettings : Bool) : EngineM TopicRecord :=
  onKv (TopicStore.create fullName labels messageRetentionSecs kmsKeyName hasSchemaSettings
    hasIngestionSettings)

def updateTopic (fullName : String) (labels : Option (SortedMap String String))
    (messageRetentionSecs : Option (Option Int)) (kmsKeyName : Option (Option String)) :
    EngineM TopicRecord :=
  onKv (TopicStore.update fullName labels messageRetentionSecs kmsKeyName)

def setTopicsToDeleted : List Nat → KvM Unit
  | [] => pure ()
  | subId :: subIds => do
    SubscriptionStore.setTopicToDeleted subId
    setTopicsToDeleted subIds

def deleteTopic (fullName : String) : EngineM Unit := onKv do
  let kv ← get
  let record ← liftResult (TopicStore.get kv fullName)
  setTopicsToDeleted (SubscriptionStore.listByTopicId kv record.id)
  TopicStore.delete fullName

/-- The topic and the seqs of the published messages, without `check_disk_guard`:
`max_disk_bytes` is `0`, so that no publish is refused for the size of the store. -/
def publish (topicFullName : String) (messages : List PublishMessage) (nowMs : Int) :
    EngineM (Nat × List Nat) := onKv do
  let kv ← get
  let record ← liftResult (TopicStore.get kv topicFullName)
  let seqs ← TopicStore.append record.id messages nowMs (topicRetentionSecs record)
  pure (record.id, seqs)

def attached (subscriptionFullName : String) : EngineM SubscriptionRecord := do
  let s ← get
  let sub ← liftResult (SubscriptionStore.get s.kv subscriptionFullName)
  if sub.detached ∨ sub.topic = deletedTopic then
    throw (.failedPrecondition s!"subscription {subscriptionFullName} is detached")
  else pure sub

def touch (subId : Nat) (nowMs : Int) : EngineM Unit :=
  Hoare.ignore (onKv (SubscriptionStore.touch subId nowMs))

/-- `pull` before the deliveries are turned into messages of the API. -/
def pullDelivered (subscriptionFullName : String) (maxMessages nowMs : Int) :
    EngineM (SubscriptionRecord × List Delivered) := do
  liftResult (validatePullMaxMessages (max maxMessages 1))
  let sub ← attached subscriptionFullName
  let ds ← leaseNext sub.id sub.topicId maxMessages nowMs sub.ackDeadlineSecs
  touch sub.id nowMs
  pure (sub, ds)

def pull (subscriptionFullName : String) (maxMessages nowMs : Int) :
    EngineM (List PulledMessage) := do
  let (sub, ds) ← pullDelivered subscriptionFullName maxMessages nowMs
  pure (ds.map (.ofDelivered sub.deadLetterTopic.isSome))

def acknowledge (subscriptionFullName : String) (ackIds : List String) (nowMs : Int) :
    EngineM Unit := do
  let s ← get
  let sub ← liftResult (SubscriptionStore.get s.kv subscriptionFullName)
  OpenPubusb.acknowledge sub.id ackIds
  touch sub.id nowMs

def modifyAckDeadline (subscriptionFullName : String) (ackIds : List String)
    (nowMs seconds : Int) : EngineM Unit := do
  let s ← get
  let sub ← liftResult (SubscriptionStore.get s.kv subscriptionFullName)
  OpenPubusb.modifyAckDeadline sub.id ackIds nowMs seconds
  touch sub.id nowMs

def sweepSubscription (subId : Nat) (graceMs nowMs : Int) : EngineM Nat :=
  OpenPubusb.sweepExpired subId nowMs graceMs

def sweepRetention (nowMs : Int) : EngineM Nat := do
  let n ← onKv (sweepExpiredMessages nowMs)
  Hoare.ignore (onKv (SubscriptionStore.sweepExpired nowMs))
  pure n

def createSubscription (fullName topicFullName : String) (opts : CreateSubscriptionOptions)
    (nowMs : Int) : EngineM SubscriptionRecord := onKv do
  let kv ← get
  let topic ← liftResult (TopicStore.get kv topicFullName)
  SubscriptionStore.create fullName topicFullName topic.id
    (TopicStore.currentTail kv topic.id) nowMs opts

def updateSubscription (fullName : String) (patch : SubscriptionUpdatePatch) :
    EngineM SubscriptionRecord :=
  onKv (SubscriptionStore.update fullName patch)

def deleteSubscription (fullName : String) : EngineM Unit :=
  onKv (SubscriptionStore.delete fullName)

def detachSubscription (fullName : String) : EngineM Unit :=
  onKv (SubscriptionStore.detach fullName)

def modifyPushConfig (fullName : String) (pushConfig : Option PushConfig) : EngineM Unit :=
  onKv (SubscriptionStore.setPushConfig fullName pushConfig)

def openStream (subscriptionFullName : String) (ackDeadlineSecs maxOutstandingMessages
    maxOutstandingBytes : Int) : EngineM (Nat × SubscriptionRecord) := do
  let sub ← attached subscriptionFullName
  let streamId ← OpenPubusb.openStream
    ⟨sub.id, sub.topicId, ackDeadlineSecs, maxOutstandingMessages, maxOutstandingBytes⟩
  pure (streamId, sub)

/-- What was leased to the stream, as messages of the API. -/
def leaseForStream (streamId : Nat) (nowMs : Int) : EngineM (List PulledMessage) := do
  let ds ← OpenPubusb.leaseForStream streamId nowMs
  pure (ds.map (.ofDelivered true))

def streamAcknowledge (streamId subId : Nat) (ackIds : List String) (nowMs : Int) :
    EngineM Unit := do
  OpenPubusb.streamAcknowledge streamId subId ackIds
  touch subId nowMs

def streamModifyAckDeadline (streamId subId : Nat) (ackIds : List String)
    (nowMs seconds : Int) : EngineM Unit := do
  OpenPubusb.streamModifyAckDeadline streamId subId ackIds nowMs seconds
  touch subId nowMs

def createSnapshot (fullName subscriptionFullName : String) (labels : SortedMap String String)
    (nowMs : Int) : EngineM SnapshotRecord := do
  let s ← get
  let sub ← liftResult (SubscriptionStore.get s.kv subscriptionFullName)
  let cursor ← loadCursor sub.id
  let oldestUnacked ← oldestUnackedPublishTsMs sub.id sub.topicId
  let expireAtMs ← liftResult (computeExpireAtMs nowMs oldestUnacked)
  onKv (SnapshotStore.create fullName sub.topic sub.topicId labels cursor expireAtMs)

def updateSnapshotLabels (fullName : String) (labels : SortedMap String String) :
    EngineM SnapshotRecord :=
  onKv (SnapshotStore.updateLabels fullName labels)

def deleteSnapshot (fullName : String) : EngineM Unit := onKv (SnapshotStore.delete fullName)

def sweepExpiredSnapshots (projectId : String) (nowMs : Int) : EngineM Nat :=
  onKv (SnapshotStore.sweepExpired projectId nowMs)

def seekToSnapshot (subscriptionFullName snapshotFullName : String) : EngineM Unit := do
  let s ← get
  let sub ← liftResult (SubscriptionStore.get s.kv subscriptionFullName)
  let snapshot ← liftResult (SnapshotStore.get s.kv snapshotFullName)
  if snapshot.topicId ≠ sub.topicId then
    throw (.invalidArgument "snapshot"
      s!"snapshot {snapshotFullName} was not captured from a subscription of {subscriptionFullName}'s topic")
  else restoreCursor sub.id snapshot.cursor

def seekToTime (subscriptionFullName : String) (timeMs : Int) : EngineM Unit := do
  let s ← get
  let sub ← liftResult (SubscriptionStore.get s.kv subscriptionFullName)
  let cursor ← loadCursor sub.id
  let boundarySeq := TopicStore.seqBoundaryForTime s.kv sub.topicId timeMs
  restoreCursor sub.id (.fresh cursor.attachSeq (max (boundarySeq - 1) cursor.attachSeq))

/-- The process is started again over the rows of its store. -/
def restart : EngineM Unit := modify fun s => .boot s.kv s.deadLettered

end PubSubService

end OpenPubusb
