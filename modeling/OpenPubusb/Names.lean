import OpenPubusb.Limits

/-! Resource names. A name carries the fact that it was accepted by the
parser of its kind, as the private fields of the source newtypes do. -/

namespace OpenPubusb

/-- Value of a subscription's `topic` once that topic has been deleted. -/
def deletedTopic : String := "_deleted-topic_"

def minIdLen : Nat := 3

def maxIdLen : Nat := 255

def forbiddenIdPrefix : String := "goog"

def isAsciiAlphabetic (c : Char) : Bool :=
  ('a' ≤ c && c ≤ 'z') || ('A' ≤ c && c ≤ 'Z')

def isAsciiAlphanumeric (c : Char) : Bool :=
  isAsciiAlphabetic c || ('0' ≤ c && c ≤ '9')

def isValidIdChar (c : Char) : Bool :=
  isAsciiAlphanumeric c || c == '-' || c == '_' || c == '.' || c == '~' || c == '+' || c == '%'

def validateResourceId (id : String) : Result Unit :=
  if ¬ (minIdLen ≤ id.length ∧ id.length ≤ maxIdLen) then
    .error (.invalidArgument "name"
      s!"resource id must be {minIdLen}-{maxIdLen} characters, got {id.length}")
  else
    match id.toList with
    | [] => .error (.invalidArgument "name" "resource id must not be empty")
    | first :: _ =>
      if ¬ isAsciiAlphabetic first then
        .error (.invalidArgument "name" "resource id must start with an ASCII letter")
      else if ¬ id.toList.all isValidIdChar then
        .error (.invalidArgument "name" "resource id must only contain [A-Za-z0-9-_.~+%]")
      else if startsWith id forbiddenIdPrefix then
        .error (.invalidArgument "name" s!"resource id must not start with \"{forbiddenIdPrefix}\"")
      else .ok ()

/-- Returns the trailing id segment of `projects/p/kind/id`. -/
def parseFullName (fullName kind : String) : Result String :=
  let shapeError : Result String := .error (.invalidArgument "name"
    s!"name must match projects/\x7bproject\x7d/{kind}/\x7bid\x7d, got \"{fullName}\"")
  match fullName.toList.splitOn '/' with
  | [p0, p1, p2, p3] =>
    if String.ofList p0 ≠ "projects" ∨ String.ofList p2 ≠ kind then shapeError
    else if p1.isEmpty then
      .error (.invalidArgument "name" "project_id must not be empty")
    else .ok (String.ofList p3)
  | _ => shapeError

def checkName (kind fullName : String) : Result Unit := do
  let id ← parseFullName fullName kind
  validateResourceId id

structure ResourceName (kind : String) where
  fullName : String
  valid : checkName kind fullName = .ok ()

def ResourceName.parse (kind fullName : String) : Result (ResourceName kind) :=
  match h : checkName kind fullName with
  | .ok () => .ok ⟨fullName, h⟩
  | .error e => .error e

abbrev SubscriptionName := ResourceName "subscriptions"

abbrev SnapshotName := ResourceName "snapshots"

/-- A topic name, or the deleted-topic sentinel. -/
structure TopicName where
  fullName : String
  valid : fullName = deletedTopic ∨ checkName "topics" fullName = .ok ()

def TopicName.parse (fullName : String) : Result TopicName :=
  if hs : fullName = deletedTopic then .ok ⟨fullName, Or.inl hs⟩
  else
    match h : checkName "topics" fullName with
    | .ok () => .ok ⟨fullName, Or.inr h⟩
    | .error e => .error e

end OpenPubusb
