import OpenPubusb.Cursor
import OpenPubusb.Filter

/-! The values stored in the keyspaces. -/

namespace OpenPubusb

structure MessageRecord where
  publishTsMs : Int
  orderingKey : String
  attributes : Attributes
  payload : List UInt8
  expireAtMs : Int

structure DeliveryRecord where
  deadlineMs : Int
  attempts : Nat
  generation : Nat
  deriving DecidableEq

structure TopicRecord where
  id : Nat
  name : String
  labels : SortedMap String String
  /-- `0` means unset. -/
  messageRetentionSecs : Int
  kmsKeyName : Option String

structure PushConfig where
  endpoint : String
  noWrapper : Bool
  writeMetadata : Bool
  deriving DecidableEq

structure SubscriptionRecord where
  id : Nat
  name : String
  topic : String
  topicId : Nat
  ackDeadlineSecs : Int
  retainAckedMessages : Bool
  messageRetentionSecs : Int
  labels : SortedMap String String
  enableMessageOrdering : Bool
  expirationTtlSecs : Option Int
  filter : String
  deadLetterTopic : Option String
  maxDeliveryAttempts : Int
  minRetryBackoffSecs : Int
  maxRetryBackoffSecs : Int
  retryPolicyExplicit : Bool
  detached : Bool
  enableExactlyOnceDelivery : Bool
  pushConfig : Option PushConfig
  lastActivityTsMs : Int

structure SnapshotRecord where
  id : Nat
  name : String
  topic : String
  topicId : Nat
  labels : SortedMap String String
  cursor : CursorRecord
  expireAtMs : Int

end OpenPubusb
