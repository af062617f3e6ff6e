import OpenPubusb.Run
import OpenPubusb.Service

/-! The service as a machine: one operation after another, each at the time its
caller reads from the clock, from the empty store on. -/

namespace OpenPubusb

inductive Op where
  | createTopic (fullName : String) (labels : SortedMap String String)
      (messageRetentionSecs : Option Int) (kmsKeyName : Option String)
      (hasSchemaSettings hasIngestionSettings : Bool)
  | updateTopic (fullName : String) (labels : Option (SortedMap String String))
      (messageRetentionSecs : Option (Option Int)) (kmsKeyName : Option (Option String))
  | deleteTopic (fullName : String)
  | publish (topic : String) (messages : List PublishMessage)
  | pull (subscription : String) (maxMessages : Int)
  | acknowledge (subscription : String) (ackIds : List String)
  | modifyAckDeadline (subscription : String) (ackIds : List String) (seconds : Int)
  | sweepSubscription (subId : Nat) (graceMs : Int)
  | sweepRetention
  | createSubscription (fullName topic : String) (opts : CreateSubscriptionOptions)
  | updateSubscription (fullName : String) (patch : SubscriptionUpdatePatch)
  | deleteSubscription (fullName : String)
  | detachSubscription (fullName : String)
  | modifyPushConfig (fullName : String) (pushConfig : Option PushConfig)
  | openStream (subscription : String) (ackDeadlineSecs maxOutstandingMessages
      maxOutstandingBytes : Int)
  | updateStream (streamId : Nat) (ackDeadlineSecs maxOutstandingMessages
      maxOutstandingBytes : Option Int)
  | leaseForStream (streamId : Nat)
  | streamAcknowledge (streamId subId : Nat) (ackIds : List String)
  | streamModifyAckDeadline (streamId subId : Nat) (ackIds : List String) (seconds : Int)
  | closeStream (streamId : Nat)
  | createSnapshot (fullName subscription : String) (labels : SortedMap String String)
  | updateSnapshotLabels (fullName : String) (labels : SortedMap String String)
  | deleteSnapshot (fullName : String)
  | sweepExpiredSnapshots (projectId : String)
  | seekToSnapshot (subscription snapshot : String)
  | seekToTime (subscription : String) (timeMs : Int)
  | restart

inductive Reply where
  | done
  | published (topicId : Nat) (seqs : List Nat)
  | delivered (subId : Nat) (ds : List Delivered)
  | opened (streamId : Nat)
  | failed (e : Error)

def streamSub (s : Engine) (streamId : Nat) : Nat :=
  ((s.streams.info streamId).map StreamInfo.subId).getD 0

def perform (nowMs : Int) : Op → EngineM Reply
  | .createTopic name labels retention kms schema ingestion => do
    let _ ← PubSubService.createTopic name labels retention kms schema ingestion
    pure .done
  | .updateTopic name labels retention kms => do
    let _ ← PubSubService.updateTopic name labels retention kms
    pure .done
  | .deleteTopic name => do
    PubSubService.deleteTopic name
    pure .done
  | .publish topic messages => do
    let r ← PubSubService.publish topic messages nowMs
    pure (.published r.1 r.2)
  | .pull subscription maxMessages => do
    let r ← PubSubService.pullDelivered subscription maxMessages nowMs
    pure (.delivered r.1.id r.2)
  | .acknowledge subscription ackIds => do
    PubSubService.acknowledge subscription ackIds nowMs
    pure .done
  | .modifyAckDeadline subscription ackIds seconds => do
    PubSubService.modifyAckDeadline subscription ackIds nowMs seconds
    pure .done
  | .sweepSubscription subId graceMs => do
    let _ ← PubSubService.sweepSubscription subId graceMs nowMs
    pure .done
  | .sweepRetention => do
    let _ ← PubSubService.sweepRetention nowMs
    pure .done
  | .createSubscription name topic opts => do
    let _ ← PubSubService.createSubscription name topic opts nowMs
    pure .done
  | .updateSubscription name patch => do
    let _ ← PubSubService.updateSubscription name patch
    pure .done
  | .deleteSubscription name => do
    PubSubService.deleteSubscription name
    pure .done
  | .detachSubscription name => do
    PubSubService.detachSubscription name
    pure .done
  | .modifyPushConfig name pushConfig => do
    PubSubService.modifyPushConfig name pushConfig
    pure .done
  | .openStream subscription secs maxMessages maxBytes => do
    let r ← PubSubService.openStream subscription secs maxMessages maxBytes
    pure (.opened r.1)
  | .updateStream streamId secs maxMessages maxBytes => do
    updateStream streamId secs maxMessages maxBytes
    pure .done
  | .leaseForStream streamId => do
    let s ← get
    let ds ← leaseForStream streamId nowMs
    pure (.delivered (streamSub s streamId) ds)
  | .streamAcknowledge streamId subId ackIds => do
    PubSubService.streamAcknowledge streamId subId ackIds nowMs
    pure .done
  | .streamModifyAckDeadline streamId subId ackIds seconds => do
    PubSubService.streamModifyAckDeadline streamId subId ackIds nowMs seconds
    pure .done
  | .closeStream streamId => do
    onStreamClosed streamId
    pure .done
  | .createSnapshot name subscription labels => do
    let _ ← PubSubService.createSnapshot name subscription labels nowMs
    pure .done
  | .updateSnapshotLabels name labels => do
    let _ ← PubSubService.updateSnapshotLabels name labels
    pure .done
  | .deleteSnapshot name => do
    PubSubService.deleteSnapshot name
    pure .done
  | .sweepExpiredSnapshots projectId => do
    let _ ← PubSubService.sweepExpiredSnapshots projectId nowMs
    pure .done
  | .seekToSnapshot subscription snapshot => do
    PubSubService.seekToSnapshot subscription snapshot
    pure .done
  | .seekToTime subscription timeMs => do
    PubSubService.seekToTime subscription timeMs
    pure .done
  | .restart => do
    PubSubService.restart
    pure .done

structure Input where
  nowMs : Int
  op : Op

def step (s : Engine) (i : Input) : Reply × Engine :=
  match perform i.nowMs i.op s with
  | .ok r t => (r, t)
  | .error e t => (.failed e, t)

/-- The service over an empty store. -/
def start : Engine := .boot .empty []

abbrev Transition := Run.Transition Engine Input Reply

/-- The transitions of the service run on `is` from the empty store. -/
def history (is : List Input) : List Transition := Run.trace step start is

def subscriptionId (kv : Kv) (name : String) : Option Nat :=
  match SubscriptionStore.get kv name with
  | .ok r => some r.id
  | .error _ => none

/-- The subscription and the ack deadline of a lease call. -/
def leaseCall (s : Engine) : Op → Option (Nat × Int)
  | .pull name _ =>
    match SubscriptionStore.get s.kv name with
    | .ok r => some (r.id, r.ackDeadlineSecs)
    | .error _ => none
  | .leaseForStream streamId =>
    (s.streams.info streamId).map (fun info => (info.subId, info.ackDeadlineSecs))
  | _ => none

/-- The subscription an acknowledgement is sent to, and its ids. -/
def ackCall (kv : Kv) : Op → Option (Nat × List String)
  | .acknowledge name ackIds => (subscriptionId kv name).map (fun i => (i, ackIds))
  | .streamAcknowledge _ subId ackIds => some (subId, ackIds)
  | _ => none

/-- The subscription a deadline change is sent to, its ids and its seconds. -/
def modifyCall (kv : Kv) : Op → Option (Nat × List String × Int)
  | .modifyAckDeadline name ackIds seconds =>
    (subscriptionId kv name).map (fun i => (i, ackIds, seconds))
  | .streamModifyAckDeadline _ subId ackIds seconds => some (subId, ackIds, seconds)
  | _ => none

/-- The subscription a seek moves, and the cursor it installs. -/
def seekTarget (kv : Kv) : Op → Option (Nat × CursorRecord)
  | .seekToSnapshot name snapshot =>
    match SubscriptionStore.get kv name, SnapshotStore.get kv snapshot with
    | .ok sub, .ok snap => if snap.topicId = sub.topicId then some (sub.id, snap.cursor) else none
    | _, _ => none
  | .seekToTime name timeMs =>
    match SubscriptionStore.get kv name with
    | .ok sub => (kv.cursors.get sub.id).map fun c =>
      (sub.id, .fresh c.attachSeq
        (max (TopicStore.seqBoundaryForTime kv sub.topicId timeMs - 1) c.attachSeq))
    | .error _ => none
  | _ => none

/-- No id of the call names the lease of a subscription other than the one the
call is sent to. -/
def NoForeignAck (s : Engine) (op : Op) : Prop :=
  ∀ i ackIds, ackCall s.kv op = some (i, ackIds) →
    ∀ ackId ∈ ackIds, ∀ j q, s.leases.Names ackId j q → j = i

def NoForeignModify (s : Engine) (op : Op) : Prop :=
  ∀ i ackIds seconds, modifyCall s.kv op = some (i, ackIds, seconds) →
    ∀ ackId ∈ ackIds, ∀ j q, s.leases.Names ackId j q → j = i

/-- The set-up of the runs on concrete inputs: topic `1` with the subscriptions
`2` and `3`, and one message. -/
def setup (opts : CreateSubscriptionOptions) : List Input :=
  [⟨0, .createTopic "projects/p/topics/top1" ∅ none none false false⟩,
   ⟨0, .createSubscription "projects/p/subscriptions/subA" "projects/p/topics/top1" opts⟩,
   ⟨0, .createSubscription "projects/p/subscriptions/subB" "projects/p/topics/top1" opts⟩,
   ⟨0, .publish "projects/p/topics/top1" [⟨[1, 2, 3], ∅, ""⟩]⟩]

def pullA (nowMs : Int) : Input := ⟨nowMs, .pull "projects/p/subscriptions/subA" 1⟩

end OpenPubusb
