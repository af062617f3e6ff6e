import OpenPubusb.Subscription

/-! Snapshot records and the lifetime rule of a new snapshot. -/

namespace OpenPubusb

namespace SnapshotStore

def resolveId (kv : Kv) (fullName : String) : Result Nat := do
  let _ ← ResourceName.parse "snapshots" fullName
  match kv.snapNames.get fullName with
  | none => throw (.notFound fullName)
  | some id => pure id

def loadRecord (kv : Kv) (id : Nat) : Result SnapshotRecord :=
  match kv.snaps.get id with
  | none => .error (.internal s!"missing snapshot record for id {id}")
  | some r => .ok r

def get (kv : Kv) (fullName : String) : Result SnapshotRecord := do
  let id ← resolveId kv fullName
  loadRecord kv id

def create (fullName topicFullName : String) (topicId : Nat) (labels : SortedMap String String)
    (cursor : CursorRecord) (expireAtMs : Int) : KvM SnapshotRecord := do
  let _ ← liftResult (ResourceName.parse "snapshots" fullName)
  let kv ← EStateM.get
  if (kv.snapNames.get fullName).isSome then throw (.alreadyExists fullName)
  else
    let id ← nextId
    let record : SnapshotRecord :=
      ⟨id, fullName, topicFullName, topicId, labels, cursor, expireAtMs⟩
    putSnap id record
    putSnapName fullName id
    pure record

def list (kv : Kv) (projectId : String) (pageSize : Nat) (pageToken : Option String) :
    Result (List SnapshotRecord × Option String) := do
  let start := s!"projects/{projectId}/snapshots/"
  let entries := kv.snapNames.entries.filter (fun e => startsWith e.1 start)
  let records ← entries.mapM (fun e => loadRecord kv e.2)
  pure (pageAfter SnapshotRecord.name records pageSize pageToken)

def updateLabels (fullName : String) (labels : SortedMap String String) : KvM SnapshotRecord := do
  let kv ← EStateM.get
  let record ← liftResult (get kv fullName)
  let record := { record with labels := labels }
  putSnap record.id record
  pure record

def delete (fullName : String) : KvM Unit := do
  let kv ← EStateM.get
  let id ← liftResult (resolveId kv fullName)
  deleteSnapRow id
  deleteSnapName fullName

def sweepRecords (nowMs : Int) : List SnapshotRecord → KvM Nat
  | [] => pure 0
  | r :: rs =>
    if r.expireAtMs ≤ nowMs then do
      delete r.name
      let removed ← sweepRecords nowMs rs
      pure (removed + 1)
    else sweepRecords nowMs rs

/-- The page size is unbounded, so the first page is the only one. -/
def sweepExpired (projectId : String) (nowMs : Int) : KvM Nat := do
  let kv ← EStateM.get
  let (page, _) ← liftResult (list kv projectId kv.snapNames.size none)
  sweepRecords nowMs page

end SnapshotStore

def computeExpireAtMs (nowMs : Int) (oldestUnackedPublishTsMs : Option Int) : Result Int :=
  let maxLifetimeMs := satMulI64 maxSnapshotLifetimeSecs 1000
  let ageMs :=
    match oldestUnackedPublishTsMs with
    | some ts => max (satSubI64 nowMs ts) 0
    | none => 0
  let expireAtMs := satSubI64 (satAddI64 nowMs maxLifetimeMs) ageMs
  let remainingMs := satSubI64 expireAtMs nowMs
  if remainingMs < satMulI64 minSnapshotRemainingLifetimeSecs 1000 then
    .error (.failedPrecondition "snapshot's remaining lifetime would be under 1 hour")
  else .ok expireAtMs

end OpenPubusb
