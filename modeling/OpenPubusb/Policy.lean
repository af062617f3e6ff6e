import OpenPubusb.Topic

/-! The retry backoff and the dead-letter decision of a redelivery. -/

namespace OpenPubusb

def minPossibleBackoffMs : Nat := 100

/-- Milliseconds of `min_backoff * 2 ^ (attempts - 1)`, capped. The cap is below
`Duration::MAX`, so the saturation of the product never shows. -/
def backoffForAttempts (attempts : Nat) (minBackoffSecs maxBackoffSecs : Int) : Nat :=
  let minBackoff := max (minBackoffSecs.toNat * 1000) minPossibleBackoffMs
  let maxBackoff := max (maxBackoffSecs.toNat * 1000) minBackoff
  let shift := min (attempts - 1) 20
  min (minBackoff * 2 ^ shift) maxBackoff

theorem backoffForAttempts_mono {a b : Nat} (h : a ≤ b) (lo hi : Int) :
    backoffForAttempts a lo hi ≤ backoffForAttempts b lo hi := by
  unfold backoffForAttempts
  refine min_le_min ?_ le_rfl
  exact Nat.mul_le_mul_left _ (Nat.pow_le_pow_right (by omega) (by omega))

structure DeadLetterPolicy where
  topic : Option String
  maxDeliveryAttempts : Int

def attrDeliveryCount : String := "CloudPubSubDeadLetterSourceDeliveryCount"

def attrSubscription : String := "CloudPubSubDeadLetterSourceSubscription"

def attrSubscriptionProject : String := "CloudPubSubDeadLetterSourceSubscriptionProject"

def attrTopicPublishTime : String := "CloudPubSubDeadLetterSourceTopicPublishTime"

def shouldDeadLetter (priorAttempts : Nat) (policy : DeadLetterPolicy) : Bool :=
  policy.topic.isSome && 0 < policy.maxDeliveryAttempts &&
    policy.maxDeliveryAttempts.toNat ≤ priorAttempts

def civilFromDays (z : Int) : Int × Nat × Nat :=
  let z := z + 719468
  let era := (if 0 ≤ z then z else z - 146096).tdiv 146097
  let doe := (z - era * 146097).toNat
  let yoe := (doe - doe / 1460 + doe / 36524 - doe / 146096) / 365
  let y := (yoe : Int) + era * 400
  let doy := doe - (365 * yoe + yoe / 4 - yoe / 100)
  let mp := (5 * doy + 2) / 153
  let day := doy - (153 * mp + 2) / 5 + 1
  let month := if mp < 10 then mp + 3 else mp - 9
  (if month ≤ 2 then y + 1 else y, month, day)

def padded (width n : Nat) : String :=
  let digits := Nat.repr n
  String.ofList (List.replicate (width - digits.length) '0') ++ digits

/-- A year as `{:04}` prints it: the sign counts towards the width. -/
def paddedYear (year : Int) : String :=
  if 0 ≤ year then padded 4 year.toNat else "-" ++ padded 3 year.natAbs

def formatRfc3339Ms (ms : Int) : String :=
  let millis := (ms.emod 1000).toNat
  let secsTotal := ms.ediv 1000
  let days := secsTotal.ediv 86400
  let secsOfDay := (secsTotal.emod 86400).toNat
  let (year, month, day) := civilFromDays days
  paddedYear year ++ "-" ++ padded 2 month ++ "-" ++ padded 2 day ++ "T" ++
    padded 2 (secsOfDay / 3600) ++ ":" ++ padded 2 (secsOfDay % 3600 / 60) ++ ":" ++
    padded 2 (secsOfDay % 60) ++ "." ++ padded 3 millis ++ "Z"

/-- The project segment of a full resource name, empty when there is none. -/
def projectOf (fullName : String) : String :=
  match fullName.toList.splitOn '/' with
  | p :: project :: _ => if String.ofList p = "projects" then String.ofList project else ""
  | _ => ""

def buildAttributes (original : Attributes) (deliveryCount : Nat) (sourceSubscription : String)
    (sourceTopicPublishTsMs : Int) : Attributes :=
  (((original.insert attrDeliveryCount (Nat.repr deliveryCount)).insert
      attrSubscription sourceSubscription).insert
      attrSubscriptionProject (projectOf sourceSubscription)).insert
      attrTopicPublishTime (formatRfc3339Ms sourceTopicPublishTsMs)

end OpenPubusb
