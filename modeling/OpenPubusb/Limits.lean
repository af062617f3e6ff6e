import OpenPubusb.Error
import OpenPubusb.SortedMap
import Mathlib.Data.String.Basic

/-! Size, count and duration limits of the API surface, and the validators
that check request data against them. -/

namespace OpenPubusb

abbrev Attributes := SortedMap String String

def maxMessageBytes : Nat := 10 * 1024 * 1024

def maxPublishBatchMessages : Nat := 1000

def maxPublishBatchBytes : Nat := 10 * 1024 * 1024

def maxAttributes : Nat := 100

def maxAttributeKeyBytes : Nat := 256

def maxAttributeValueBytes : Nat := 1024

def maxOrderingKeyBytes : Nat := 1024

def minAckDeadlineSecs : Int := 10

def maxAckDeadlineSecs : Int := 600

def minSubscriptionRetentionSecs : Int := 600

def maxSubscriptionRetentionSecs : Int := 7 * 24 * 3600

def minTopicRetentionSecs : Int := 600

def maxTopicRetentionSecs : Int := 31 * 24 * 3600

def maxSnapshotLifetimeSecs : Int := maxSubscriptionRetentionSecs

def minSnapshotRemainingLifetimeSecs : Int := 3600

def minDeadLetterMaxAttempts : Int := 5

def maxDeadLetterMaxAttempts : Int := 100

def minRetryBackoffSecs : Int := 0

def maxRetryBackoffSecs : Int := 600

def maxFilterChars : Nat := 256

def minPullMaxMessages : Int := 1

def maxPullMaxMessages : Int := 1000

def attributeKeyForbiddenPrefix : String := "goog"

def startsWith (s start : String) : Bool := start.toList.isPrefixOf s.toList

/-- A character in a string that `{:?}` prints. Of the characters that are not
printable only the control characters are told apart. -/
def debugChar (c : Char) : List Char :=
  if c == '"' || c == '\\' then ['\\', c]
  else if c == '\n' then ['\\', 'n']
  else if c == '\r' then ['\\', 'r']
  else if c == '\t' then ['\\', 't']
  else if c.toNat == 0 then ['\\', '0']
  else if c.toNat < 32 || (127 ≤ c.toNat && c.toNat < 160) then
    "\\u\x7b".toList ++ Nat.toDigits 16 c.toNat ++ "\x7d".toList
  else [c]

def debugStr (s : String) : String := String.ofList ('"' :: s.toList.flatMap debugChar ++ ['"'])

example : debugStr "k\x1b" = "\"k\\u\x7b1b\x7d\"" := by decide +kernel

def validateAttribute (key value : String) : Result Unit :=
  if key.utf8ByteSize > maxAttributeKeyBytes then
    .error (.invalidArgument "attributes.key"
      s!"attribute key {debugStr key} is {key.utf8ByteSize} bytes, exceeding maximum of {maxAttributeKeyBytes}")
  else if startsWith key attributeKeyForbiddenPrefix then
    .error (.invalidArgument "attributes.key"
      s!"attribute key {debugStr key} must not start with {debugStr attributeKeyForbiddenPrefix}")
  else if value.utf8ByteSize > maxAttributeValueBytes then
    .error (.invalidArgument "attributes.value"
      s!"attribute value for key {debugStr key} is {value.utf8ByteSize} bytes, exceeding maximum of {maxAttributeValueBytes}")
  else .ok ()

def validateAttributes : List (String × String) → Result Unit
  | [] => .ok ()
  | (key, value) :: rest => do
    validateAttribute key value
    validateAttributes rest

def attributesBytes (attributes : Attributes) : Nat :=
  (attributes.entries.map (fun e => e.1.utf8ByteSize + e.2.utf8ByteSize)).sum

def validateMessage (dataLen : Nat) (attributes : Attributes) (orderingKey : String) :
    Result Unit := do
  if attributes.size > maxAttributes then
    throw (.invalidArgument "attributes"
      s!"attributes count {attributes.size} exceeds maximum of {maxAttributes}")
  validateAttributes attributes.entries
  let totalBytes := dataLen + attributesBytes attributes
  if totalBytes > maxMessageBytes then
    throw (.invalidArgument "data"
      s!"message size {totalBytes} bytes (data + attributes) exceeds maximum of {maxMessageBytes}")
  if orderingKey.utf8ByteSize > maxOrderingKeyBytes then
    throw (.invalidArgument "ordering_key"
      s!"ordering_key is {orderingKey.utf8ByteSize} bytes, exceeding maximum of {maxOrderingKeyBytes}")

def validatePublishBatch (messageCount totalBytes : Nat) : Result Unit := do
  if messageCount > maxPublishBatchMessages then
    throw (.invalidArgument "messages"
      s!"batch contains {messageCount} messages, exceeding maximum of {maxPublishBatchMessages}")
  if totalBytes > maxPublishBatchBytes then
    throw (.invalidArgument "messages"
      s!"batch total size {totalBytes} bytes exceeds maximum of {maxPublishBatchBytes}")

def validateRange (field message : String) (lo hi v : Int) : Result Unit :=
  if lo ≤ v ∧ v ≤ hi then .ok () else .error (.invalidArgument field message)

theorem validateRange_eq_ok {field message : String} {lo hi v : Int} {u : Unit} :
    validateRange field message lo hi v = .ok u ↔ lo ≤ v ∧ v ≤ hi := by
  unfold validateRange
  split_ifs with h
  · exact ⟨fun _ => h, fun _ => rfl⟩
  · simp [h]

def validateAckDeadlineSecs (v : Int) : Result Unit :=
  validateRange "ack_deadline_seconds"
    s!"ack_deadline_seconds {v} is outside the allowed range {minAckDeadlineSecs}..={maxAckDeadlineSecs}"
    minAckDeadlineSecs maxAckDeadlineSecs v

def validateSubscriptionRetentionSecs (v : Int) : Result Unit :=
  validateRange "message_retention_duration"
    s!"message_retention_duration {v}s is outside the allowed range {minSubscriptionRetentionSecs}..={maxSubscriptionRetentionSecs}"
    minSubscriptionRetentionSecs maxSubscriptionRetentionSecs v

def validateTopicRetentionSecs (v : Int) : Result Unit :=
  validateRange "message_retention_duration"
    s!"message_retention_duration {v}s is outside the allowed range {minTopicRetentionSecs}..={maxTopicRetentionSecs}"
    minTopicRetentionSecs maxTopicRetentionSecs v

def validateDeadLetterMaxAttempts (v : Int) : Result Unit :=
  if v = 0 then .ok ()
  else validateRange "dead_letter_policy.max_delivery_attempts"
    s!"max_delivery_attempts {v} is outside the allowed range {minDeadLetterMaxAttempts}..={maxDeadLetterMaxAttempts}"
    minDeadLetterMaxAttempts maxDeadLetterMaxAttempts v

def validateRetryBackoffSecs (v : Int) : Result Unit :=
  validateRange "retry_policy.backoff"
    s!"backoff {v}s is outside the allowed range {minRetryBackoffSecs}..={maxRetryBackoffSecs}"
    minRetryBackoffSecs maxRetryBackoffSecs v

def validateFilterLen (filter : String) : Result Unit :=
  if filter.length > maxFilterChars then
    .error (.invalidArgument "filter"
      s!"filter is {filter.length} characters, exceeding maximum of {maxFilterChars}")
  else .ok ()

def validatePullMaxMessages (v : Int) : Result Unit :=
  validateRange "max_messages"
    s!"max_messages {v} is outside the allowed range {minPullMaxMessages}..={maxPullMaxMessages}"
    minPullMaxMessages maxPullMaxMessages v

end OpenPubusb
