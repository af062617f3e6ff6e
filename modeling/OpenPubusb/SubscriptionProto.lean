import OpenPubusb.RecordUpdates
import OpenPubusb.Timestamps

/-! The subscriber service: subscriptions as the API writes them, their conversion to and
from records, and updates under a field mask. -/

namespace OpenPubusb

structure Duration where
  seconds : Int
  nanos : Int

def secsToDuration (secs : Int) : Duration := ⟨secs, 0⟩

def durationToSecs (d : Duration) : Int := d.seconds

namespace Proto

structure OidcToken where
  serviceAccountEmail : String
  audience : String

inductive Wrapper where
  | pubsubWrapper
  | noWrapper (writeMetadata : Bool)

structure PushConfig where
  pushEndpoint : String
  attributes : SortedMap String String
  authenticationMethod : Option OidcToken
  wrapper : Option Wrapper

structure ExpirationPolicy where
  ttl : Option Duration

structure DeadLetterPolicy where
  deadLetterTopic : String
  maxDeliveryAttempts : Int

structure RetryPolicy where
  minimumBackoff : Option Duration
  maximumBackoff : Option Duration

/-- The fields that the service reads; of the two export configurations it only sees
whether they are set. -/
structure Subscription where
  name : String
  topic : String
  pushConfig : Option PushConfig
  hasBigqueryConfig : Bool
  hasCloudStorageConfig : Bool
  ackDeadlineSeconds : Int
  retainAckedMessages : Bool
  messageRetentionDuration : Option Duration
  labels : SortedMap String String
  enableMessageOrdering : Bool
  expirationPolicy : Option ExpirationPolicy
  filter : String
  deadLetterPolicy : Option DeadLetterPolicy
  retryPolicy : Option RetryPolicy
  detached : Bool
  enableExactlyOnceDelivery : Bool

end Proto

def pushConfigToProto (cfg : PushConfig) : Proto.PushConfig :=
  { pushEndpoint := cfg.endpoint
    attributes := ∅
    authenticationMethod := none
    wrapper := some (if cfg.noWrapper then .noWrapper cfg.writeMetadata else .pubsubWrapper) }

/-- The warning about a token is left out; the token is dropped. -/
def pushConfigFromProto (pc : Proto.PushConfig) : PushConfig :=
  match pc.wrapper with
  | some (.noWrapper writeMetadata) => ⟨pc.pushEndpoint, true, writeMetadata⟩
  | _ => ⟨pc.pushEndpoint, false, false⟩

/-- A configuration without an endpoint stands for none. -/
def pushConfigNamed (pc : Option Proto.PushConfig) : Option PushConfig :=
  (pc.filter (fun pc => pc.pushEndpoint ≠ "")).map pushConfigFromProto

def subscriptionToProto (record : SubscriptionRecord) : Proto.Subscription :=
  { name := record.name
    topic := record.topic
    pushConfig := record.pushConfig.map pushConfigToProto
    hasBigqueryConfig := false
    hasCloudStorageConfig := false
    ackDeadlineSeconds := record.ackDeadlineSecs
    retainAckedMessages := record.retainAckedMessages
    messageRetentionDuration := some (secsToDuration record.messageRetentionSecs)
    labels := record.labels
    enableMessageOrdering := record.enableMessageOrdering
    expirationPolicy := some ⟨record.expirationTtlSecs.map secsToDuration⟩
    filter := record.filter
    deadLetterPolicy := record.deadLetterTopic.map fun topic => ⟨topic, record.maxDeliveryAttempts⟩
    retryPolicy := some ⟨some (secsToDuration record.minRetryBackoffSecs),
      some (secsToDuration record.maxRetryBackoffSecs)⟩
    detached := record.detached
    enableExactlyOnceDelivery := record.enableExactlyOnceDelivery }

def createOptionsFromProto (sub : Proto.Subscription) : CreateSubscriptionOptions :=
  { ackDeadlineSecs := if sub.ackDeadlineSeconds ≠ 0 then some sub.ackDeadlineSeconds else none
    retainAckedMessages := sub.retainAckedMessages
    messageRetentionSecs := sub.messageRetentionDuration.map durationToSecs
    labels := sub.labels
    enableMessageOrdering := sub.enableMessageOrdering
    expirationTtlSecs := sub.expirationPolicy.map fun p => p.ttl.map durationToSecs
    filter := sub.filter
    deadLetterTopic := sub.deadLetterPolicy.map Proto.DeadLetterPolicy.deadLetterTopic
    maxDeliveryAttempts := sub.deadLetterPolicy.map Proto.DeadLetterPolicy.maxDeliveryAttempts
    minRetryBackoffSecs := (sub.retryPolicy.bind Proto.RetryPolicy.minimumBackoff).map durationToSecs
    maxRetryBackoffSecs := (sub.retryPolicy.bind Proto.RetryPolicy.maximumBackoff).map durationToSecs
    enableExactlyOnceDelivery := sub.enableExactlyOnceDelivery
    pushConfig := pushConfigNamed sub.pushConfig
    hasBigqueryConfig := sub.hasBigqueryConfig
    hasCloudStorageConfig := sub.hasCloudStorageConfig }

def masked {α : Type} (paths : List String) (path : String) (v : Option α) : Option α :=
  if path ∈ paths then v else none

/-- The patch of `update_subscription`. A policy that is named but not sent is taken off,
except for the retry policy and the retention, which then stay. -/
def patchFromMask (sub : Proto.Subscription) (paths : List String) : SubscriptionUpdatePatch :=
  { ackDeadlineSecs := masked paths "ack_deadline_seconds" (some sub.ackDeadlineSeconds)
    retainAckedMessages := masked paths "retain_acked_messages" (some sub.retainAckedMessages)
    messageRetentionSecs := masked paths "message_retention_duration"
      (sub.messageRetentionDuration.map durationToSecs)
    labels := masked paths "labels" (some sub.labels)
    expirationTtlSecs := masked paths "expiration_policy"
      (some ((sub.expirationPolicy.bind Proto.ExpirationPolicy.ttl).map durationToSecs))
    deadLetterTopic := masked paths "dead_letter_policy"
      (some (sub.deadLetterPolicy.map Proto.DeadLetterPolicy.deadLetterTopic))
    maxDeliveryAttempts := masked paths "dead_letter_policy"
      (sub.deadLetterPolicy.map Proto.DeadLetterPolicy.maxDeliveryAttempts)
    minRetryBackoffSecs := masked paths "retry_policy"
      ((sub.retryPolicy.bind Proto.RetryPolicy.minimumBackoff).map durationToSecs)
    maxRetryBackoffSecs := masked paths "retry_policy"
      ((sub.retryPolicy.bind Proto.RetryPolicy.maximumBackoff).map durationToSecs)
    detached := masked paths "detached" (some sub.detached)
    enableExactlyOnceDelivery := masked paths "enable_exactly_once_delivery"
      (some sub.enableExactlyOnceDelivery)
    pushConfig := masked paths "push_config" (some (pushConfigNamed sub.pushConfig)) }

def immutablePaths : List String := ["name", "topic", "enable_message_ordering", "filter"]

structure UpdateSubscriptionRequest where
  subscription : Option Proto.Subscription
  updateMask : Option (List String)

namespace SubscriberService

def createSubscription (sub : Proto.Subscription) (nowMs : Int) :
    EStateM Status Engine Proto.Subscription := do
  let record ← mapErr (PubSubService.createSubscription sub.name sub.topic
    (createOptionsFromProto sub) nowMs)
  pure (subscriptionToProto record)

def getSubscription (subscription : String) : EStateM Status Engine Proto.Subscription := do
  let s ← EStateM.get
  let record ← mapErr (liftResult (SubscriptionStore.get s.kv subscription))
  pure (subscriptionToProto record)

def updateSubscription (req : UpdateSubscriptionRequest) :
    EStateM Status Engine Proto.Subscription :=
  match req.subscription with
  | none => throw ⟨.invalidArgument, "subscription is required"⟩
  | some sub =>
    let paths := req.updateMask.getD []
    match immutablePaths.find? (fun path => path ∈ paths) with
    | some path =>
      throw (toStatus (.invalidArgument path s!"{path} is immutable after creation"))
    | none => do
      let record ← mapErr (PubSubService.updateSubscription sub.name (patchFromMask sub paths))
      pure (subscriptionToProto record)

def modifyPushConfig (subscription : String) (pushConfig : Option Proto.PushConfig) :
    EStateM Status Engine Unit :=
  mapErr (PubSubService.modifyPushConfig subscription (pushConfigNamed pushConfig))

end SubscriberService

/-- The operation is one that the subscriber service makes of a request. -/
def FromRequest : Op → Prop
  | .createSubscription _ _ opts => ∃ sub, opts = createOptionsFromProto sub
  | .updateSubscription _ patch => ∃ sub paths, patch = patchFromMask sub paths
  | .modifyPushConfig _ pushConfig => ∃ pc, pushConfig = pushConfigNamed pc
  | _ => True

end OpenPubusb
