import OpenPubusb.Kv
import Mathlib.Data.List.Sort

/-! Topic records and the append-only message log of a topic. Reads are
functions of the store; anything that writes runs in `KvM`. -/

namespace OpenPubusb

/-- A message as submitted to a publish. -/
structure PublishMessage where
  data : List UInt8
  attributes : Attributes
  orderingKey : String

def liftResult {σ α : Type} : Result α → EStateM Error σ α
  | .ok a => pure a
  | .error e => throw e

theorem ensures_liftResult {σ α : Type} {r : Result α} {s : σ} {Q : α → σ → Prop}
    {E : Error → σ → Prop} :
    Hoare.Ensures (liftResult r) s Q E ↔ (∀ a, r = .ok a → Q a s) ∧ (∀ e, r = .error e → E e s) := by
  cases r <;> simp [liftResult]

/-- Allocates from the id counter that topics, subscriptions and snapshots
share. It counts on where the `u64` of the source is full: there topics and
snapshots keep the last id, and a subscription is refused. -/
def nextId : KvM Nat := do
  let kv ← get
  let next := kv.idSeq.getD 0 + 1
  putIdSeq next
  pure next

/-- One page of `records`, sorted by `name`, after the token. -/
def pageAfter {ρ : Type} (name : ρ → String) (records : List ρ) (pageSize : Nat)
    (pageToken : Option String) : List ρ × Option String :=
  let sorted := records.insertionSort (fun a b => name a ≤ name b)
  let start :=
    match pageToken with
    | some token => (sorted.takeWhile (fun r => name r ≤ token)).length
    | none => 0
  let stop := min (start + pageSize) sorted.length
  let page := (sorted.drop start).take (stop - start)
  (page, if stop < sorted.length then page.getLast?.map name else none)

namespace TopicStore

def resolveId (kv : Kv) (fullName : String) : Result Nat := do
  let _ ← TopicName.parse fullName
  match kv.topicNames.get fullName with
  | none => throw (.notFound fullName)
  | some id => pure id

def loadRecord (kv : Kv) (id : Nat) : Result TopicRecord :=
  match kv.topics.get id with
  | none => .error (.internal s!"missing topic record for id {id}")
  | some r => .ok r

def get (kv : Kv) (fullName : String) : Result TopicRecord := do
  let id ← resolveId kv fullName
  loadRecord kv id

def checkRetention (messageRetentionSecs : Option Int) : Result Unit :=
  match messageRetentionSecs with
  | some secs => validateTopicRetentionSecs secs
  | none => .ok ()

def checkCreate (fullName : String) (messageRetentionSecs : Option Int)
    (hasSchemaSettings hasIngestionSettings : Bool) : Result Unit := do
  let _ ← TopicName.parse fullName
  if hasSchemaSettings then
    throw (.invalidArgument "schema_settings" "schema_settings is not supported by this server")
  if hasIngestionSettings then
    throw (.invalidArgument "ingestion_data_source_settings"
      "ingestion_data_source_settings is not supported by this server")
  checkRetention messageRetentionSecs

def create (fullName : String) (labels : SortedMap String String)
    (messageRetentionSecs : Option Int) (kmsKeyName : Option String)
    (hasSchemaSettings hasIngestionSettings : Bool) : KvM TopicRecord := do
  liftResult (checkCreate fullName messageRetentionSecs hasSchemaSettings hasIngestionSettings)
  let kv ← EStateM.get
  if (kv.topicNames.get fullName).isSome then throw (.alreadyExists fullName)
  else
    let id ← nextId
    let record : TopicRecord := ⟨id, fullName, labels, messageRetentionSecs.getD 0, kmsKeyName⟩
    putTopic id record
    putTopicName fullName id
    pure record

def update (fullName : String) (labels : Option (SortedMap String String))
    (messageRetentionSecs : Option (Option Int)) (kmsKeyName : Option (Option String)) :
    KvM TopicRecord := do
  let kv ← EStateM.get
  let record ← liftResult (get kv fullName)
  liftResult (checkRetention (messageRetentionSecs.getD none))
  let record :=
    { record with
      labels := labels.getD record.labels
      messageRetentionSecs :=
        match messageRetentionSecs with
        | some (some secs) => secs
        | some none => 0
        | none => record.messageRetentionSecs
      kmsKeyName := kmsKeyName.getD record.kmsKeyName }
  putTopic record.id record
  pure record

def delete (fullName : String) : KvM Unit := do
  let kv ← EStateM.get
  let id ← liftResult (resolveId kv fullName)
  deleteTopicRow id
  deleteTopicName fullName

def list (kv : Kv) (projectId : String) (pageSize : Nat) (pageToken : Option String) :
    Result (List TopicRecord × Option String) := do
  let start := s!"projects/{projectId}/topics/"
  let entries := kv.topicNames.entries.filter (fun e => startsWith e.1 start)
  let records ← entries.mapM (fun e => loadRecord kv e.2)
  pure (pageAfter TopicRecord.name records pageSize pageToken)

/-- The seq of the latest message of the topic, `0` when there is none. -/
def currentTail (kv : Kv) (topicId : Nat) : Nat := (kv.topicSeq.get topicId).getD 0

/-- Allocates from the counter of the topic; the source stops at the last `u64`. -/
def nextSeq (topicId : Nat) : KvM Nat := do
  let kv ← EStateM.get
  let seq := currentTail kv topicId + 1
  putTopicSeq topicId seq
  pure seq

def batchBytes (messages : List PublishMessage) : Nat :=
  (messages.map (fun m => m.data.length + attributesBytes m.attributes)).sum

def validateMessages : List PublishMessage → Result Unit
  | [] => .ok ()
  | m :: ms => do
    validateMessage m.data.length m.attributes m.orderingKey
    validateMessages ms

/-- The checks `append` makes before it writes anything. -/
def validateBatch (messages : List PublishMessage) : Result Unit := do
  validateMessages messages
  validatePublishBatch messages.length (batchBytes messages)

def record (m : PublishMessage) (nowMs expireAtMs : Int) : MessageRecord :=
  ⟨nowMs, m.orderingKey, m.attributes, m.data, expireAtMs⟩

def appendAll (topicId : Nat) (nowMs expireAtMs : Int) : List PublishMessage → KvM (List Nat)
  | [] => pure []
  | m :: ms => do
    let seq ← nextSeq topicId
    putMsg topicId seq (record m nowMs expireAtMs)
    let seqs ← appendAll topicId nowMs expireAtMs ms
    pure (seq :: seqs)

def expireAt (nowMs retentionSecs : Int) : Int := satAddI64 nowMs (satMulI64 retentionSecs 1000)

def append (topicId : Nat) (messages : List PublishMessage) (nowMs retentionSecs : Int) :
    KvM (List Nat) := do
  liftResult (validateBatch messages)
  appendAll topicId nowMs (expireAt nowMs retentionSecs) messages

/-- A missing row counts as published before every time. -/
def publishTsMs (kv : Kv) (topicId seq : Nat) : Int :=
  match kv.msg.get ⟨topicId, seq⟩ with
  | some m => m.publishTsMs
  | none => i64Min

/-- The binary search of `seq_boundary_for_time`; the interval shrinks on
every turn, so `hi - lo` turns suffice. -/
def boundarySearch (kv : Kv) (topicId : Nat) (targetTsMs : Int) : Nat → Nat → Nat → Nat
  | 0, lo, _ => lo
  | fuel + 1, lo, hi =>
    if lo < hi then
      let mid := lo + (hi - lo) / 2
      if publishTsMs kv topicId mid < targetTsMs then
        boundarySearch kv topicId targetTsMs fuel (mid + 1) hi
      else boundarySearch kv topicId targetTsMs fuel lo mid
    else lo

def seqBoundaryForTime (kv : Kv) (topicId : Nat) (targetTsMs : Int) : Nat :=
  let tail := currentTail kv topicId
  boundarySearch kv topicId targetTsMs tail 1 (tail + 1)

end TopicStore

end OpenPubusb
