import OpenPubusb.Lease
import OpenPubusb.Policy
import OpenPubusb.Snapshot
import OpenPubusb.Stream

/-! The delivery engine: leases messages out of the log of a topic to the
cursor of a subscription, and applies acknowledgements and deadline changes
against those leases. -/

namespace OpenPubusb

/-- One entry of the dead-letter log: the message `seq` of subscription
`subId` was appended to topic `topicId` as `copySeq`. -/
structure DeadLettered where
  subId : Nat
  seq : Nat
  topicId : Nat
  copySeq : Nat
  deriving DecidableEq

/-- `deadLettered` stands for the dead-letter metric. It is written where the
metric is, and no operation reads it. -/
structure Engine where
  kv : Kv
  leases : LeaseTable
  streams : StreamRegistry
  filters : SortedMap Nat (Option Expr)
  deadLettered : List DeadLettered

abbrev EngineM := EStateM Error Engine

def Engine.new (kv : Kv) (deadLettered : List DeadLettered) : Engine :=
  ⟨kv, .empty, .empty, ∅, deadLettered⟩

def onKv {α : Type} (m : KvM α) : EngineM α :=
  Hoare.focus Engine.kv (fun s kv => { s with kv := kv }) m

def setLeases (leases : LeaseTable) : EngineM Unit := modify fun s => { s with leases := leases }

def setStreams (streams : StreamRegistry) : EngineM Unit :=
  modify fun s => { s with streams := streams }

structure Delivered where
  seq : Nat
  ackId : String
  message : MessageRecord
  deliveryAttempt : Nat

structure ReclaimPolicy where
  subscriptionFullName : String
  minRetryBackoffSecs : Int
  maxRetryBackoffSecs : Int
  retryPolicyExplicit : Bool
  deadLetter : DeadLetterPolicy

def reclaimPolicy (kv : Kv) (subId : Nat) : ReclaimPolicy :=
  match kv.subs.get subId with
  | some r => ⟨r.name, r.minRetryBackoffSecs, r.maxRetryBackoffSecs, r.retryPolicyExplicit,
      ⟨r.deadLetterTopic, r.maxDeliveryAttempts⟩⟩
  | none => ⟨"", 10, 600, false, ⟨none, 0⟩⟩

/-- The filter of the stored record; one that does not compile counts as none. -/
def storedFilter (kv : Kv) (subId : Nat) : Option Expr :=
  match compileFilter (((kv.subs.get subId).map SubscriptionRecord.filter).getD "") with
  | .ok f => f
  | .error _ => none

def compiledFilter (subId : Nat) : EngineM (Option Expr) := do
  let s ← get
  match s.filters.get subId with
  | some f => pure f
  | none =>
    let f := storedFilter s.kv subId
    modify fun s => { s with filters := s.filters.insert subId f }
    pure f

def accepts (filter : Option Expr) (attrs : Attributes) : Bool :=
  match filter with
  | some f => f.matches attrs
  | none => true

/-- The message a dead-letter topic receives for `message`. -/
def deadLetterCopy (message : MessageRecord) (policy : ReclaimPolicy) (deliveryCount : Nat) :
    PublishMessage :=
  ⟨message.payload,
    buildAttributes message.attributes deliveryCount policy.subscriptionFullName
      message.publishTsMs,
    message.orderingKey⟩

def topicRetentionSecs (r : TopicRecord) : Int :=
  if 0 < r.messageRetentionSecs then r.messageRetentionSecs else maxTopicRetentionSecs

/-- `false` when the dead-letter topic does not exist. -/
def forwardToDeadLetterTopic (subId seq : Nat) (topicName : String) (message : MessageRecord)
    (policy : ReclaimPolicy) (deliveryCount : Nat) (nowMs : Int) : EngineM Bool := do
  let s ← get
  match TopicStore.get s.kv topicName with
  | .error (.notFound _) => pure false
  | .error e => throw e
  | .ok dlq =>
    let seqs ← onKv (TopicStore.append dlq.id [deadLetterCopy message policy deliveryCount] nowMs
      (topicRetentionSecs dlq))
    modify fun s => { s with
      deadLettered := s.deadLettered ++ seqs.map (fun c => ⟨subId, seq, dlq.id, c⟩) }
    pure true

def loadCursor (subId : Nat) : EngineM CursorRecord := do
  let s ← get
  match s.kv.cursors.get subId with
  | none => throw (.notFound s!"subscription cursor for id {subId}")
  | some c => pure c

def saveCursor (subId : Nat) (c : CursorRecord) : EngineM Unit := onKv (putCursor subId c)

/-- The cursor is only written when the changed flag is set. -/
def saveChanged (subId : Nat) (c : CursorRecord × Bool) : EngineM Unit :=
  if c.2 then saveCursor subId c.1 else pure ()

/-- What one `lease_next` call fixes before its scan. -/
structure LeaseArgs where
  subId : Nat
  topicId : Nat
  maxMessages : Nat
  nowMs : Int
  ackDeadlineSecs : Int
  filter : Option Expr

/-- The locals of the scan of `lease_next`. -/
structure Scan where
  cursor : CursorRecord
  cursorChanged : Bool
  out : List Delivered

def Scan.markDone (sc : Scan) (seq : Nat) : Scan :=
  { sc with cursor := OpenPubusb.markDone sc.cursor seq, cursorChanged := true }

def LeaseArgs.deadlineMs (a : LeaseArgs) : Int :=
  satAddI64 a.nowMs (max a.ackDeadlineSecs 0 * 1000)

def deliver (a : LeaseArgs) (seq : Nat) (message : MessageRecord) (attempts : Nat) : Delivered :=
  ⟨seq, encodeAckId a.subId seq attempts, message, attempts⟩

/-- The end of the scan body: the message is leased to the caller. -/
def grant (a : LeaseArgs) (sc : Scan) (seq : Nat) (message : MessageRecord) (priorAttempts : Nat) :
    EngineM Scan := do
  let attempts := satSuccU32 priorAttempts
  let s ← get
  setLeases (s.leases.insert a.subId seq a.deadlineMs attempts attempts)
  onKv (putDlv a.subId seq ⟨a.deadlineMs, attempts, attempts⟩)
  pure { sc with out := sc.out ++ [deliver a seq message attempts] }

def ReclaimPolicy.eligibleAt (policy : ReclaimPolicy) (deadlineMs : Int) (attempts : Nat) : Int :=
  satAddI64 deadlineMs
    (backoffForAttempts attempts policy.minRetryBackoffSecs policy.maxRetryBackoffSecs)

def removeLease (subId seq : Nat) : EngineM Unit :=
  modify fun s => { s with leases := s.leases.remove subId seq }

/-- Whether the message went to the dead-letter topic. -/
def tryDeadLetter (a : LeaseArgs) (seq : Nat) (message : MessageRecord) (policy : ReclaimPolicy)
    (attempts : Nat) : EngineM Bool :=
  if shouldDeadLetter attempts policy.deadLetter then
    forwardToDeadLetterTopic a.subId seq (policy.deadLetter.topic.getD "") message policy
      attempts a.nowMs
  else pure false

/-- The end of the two branches, once `tryDeadLetter` has decided. -/
def settle (a : LeaseArgs) (sc : Scan) (seq : Nat) (message : MessageRecord) (attempts : Nat)
    (forwarded : Bool) : EngineM Scan :=
  if forwarded then do
    onKv (deleteDlv a.subId seq)
    pure (sc.markDone seq)
  else grant a sc seq message attempts

/-- The two branches of the scan body for a message delivered before: `live` when
the lease is still in memory, otherwise the persisted row gives the deadline
and the attempts. -/
def reclaim (a : LeaseArgs) (sc : Scan) (seq : Nat) (message : MessageRecord)
    (deadlineMs : Int) (attempts : Nat) (live : Bool) : EngineM Scan := do
  let s ← get
  let policy := reclaimPolicy s.kv a.subId
  if policy.retryPolicyExplicit ∧ a.nowMs < policy.eligibleAt deadlineMs attempts then
    pure sc
  else
    let forwarded ← tryDeadLetter a seq message policy attempts
    (if live then removeLease a.subId seq else pure ())
    settle a sc seq message attempts forwarded

def leaseOne (a : LeaseArgs) (sc : Scan) (seq : Nat) (message : MessageRecord) : EngineM Scan := do
  if sc.cursor.isDone seq then pure sc
  else if ¬ accepts a.filter message.attributes then pure (sc.markDone seq)
  else
    let s ← get
    match s.leases.get a.subId seq with
    | some lease =>
      if lease.deadlineMs > a.nowMs then pure sc
      else reclaim a sc seq message lease.deadlineMs lease.attempts true
    | none =>
      match s.kv.dlv.get ⟨a.subId, seq⟩ with
      | some row => reclaim a sc seq message row.deadlineMs row.attempts false
      | none => grant a sc seq message 0

def leaseScan (a : LeaseArgs) (sc : Scan) : List (Nat × MessageRecord) → EngineM Scan
  | [] => pure sc
  | (seq, message) :: rows =>
    if a.maxMessages ≤ sc.out.length then pure sc
    else do
      let sc ← leaseOne a sc seq message
      leaseScan a sc rows

/-- The part of `lease_next` that runs under the lease mutex. -/
def leaseNextLocked (a : LeaseArgs) (cursor : CursorRecord) : EngineM (List Delivered) := do
  let s ← get
  let sc ← leaseScan a ⟨cursor, false, []⟩ (scanPrefix s.kv.msg a.topicId)
  saveChanged a.subId (sc.cursor, sc.cursorChanged)
  pure sc.out

def leaseNext (subId topicId : Nat) (maxMessages nowMs ackDeadlineSecs : Int) :
    EngineM (List Delivered) :=
  if maxMessages ≤ 0 then pure []
  else do
    let cursor ← loadCursor subId
    let filter ← compiledFilter subId
    leaseNextLocked ⟨subId, topicId, maxMessages.toNat, nowMs, ackDeadlineSecs, filter⟩ cursor

/-- The loop of `acknowledge`, with the cursor and its changed flag. -/
def ackAll (subId : Nat) (c : CursorRecord × Bool) : List String → EngineM (CursorRecord × Bool)
  | [] => pure c
  | ackId :: ackIds => do
    let s ← get
    setLeases (s.leases.ack ackId).1
    match (s.leases.ack ackId).2 with
    | .applied lease =>
      onKv (deleteDlv subId lease.seq)
      ackAll subId (markDone c.1 lease.seq, true) ackIds
    | _ => ackAll subId c ackIds

/-- The part of `acknowledge` that runs under the lease mutex. -/
def acknowledgeLocked (subId : Nat) (cursor : CursorRecord) (ackIds : List String) :
    EngineM Unit := do
  let c ← ackAll subId (cursor, false) ackIds
  saveChanged subId c

def acknowledge (subId : Nat) (ackIds : List String) : EngineM Unit :=
  if ackIds = [] then pure ()
  else do
    let cursor ← loadCursor subId
    acknowledgeLocked subId cursor ackIds

def modifyAckDeadline (subId : Nat) (ackIds : List String) (nowMs seconds : Int) : EngineM Unit :=
  match ackIds with
  | [] => pure ()
  | ackId :: ackIds => do
    let s ← get
    setLeases (s.leases.extend ackId nowMs seconds).1
    match (s.leases.extend ackId nowMs seconds).2 with
    | .applied lease =>
      onKv (putDlv subId lease.seq ⟨lease.deadlineMs, lease.attempts, lease.generation⟩)
      modifyAckDeadline subId ackIds nowMs seconds
    | _ => modifyAckDeadline subId ackIds nowMs seconds

/-- The id of the new stream. -/
def openStream (info : StreamInfo) : EngineM Nat := do
  let s ← get
  setStreams (s.streams.openStream info)
  pure (s.streams.nextId + 1)

def updateStream (streamId : Nat) (ackDeadlineSecs maxOutstandingMessages
    maxOutstandingBytes : Option Int) : EngineM Unit :=
  modify fun s => { s with
    streams := s.streams.update streamId ackDeadlineSecs maxOutstandingMessages
      maxOutstandingBytes }

def recordLeasedAll (r : StreamRegistry) (streamId : Nat) (ds : List Delivered) : StreamRegistry :=
  ds.foldl (fun r d => r.recordLeased streamId d.seq d.message.payload.length) r

def i32Max : Int := 2 ^ 31 - 1

def leaseForStream (streamId : Nat) (nowMs : Int) : EngineM (List Delivered) := do
  let s ← get
  match s.streams.info streamId with
  | none => throw (.notFound s!"stream_id={streamId}")
  | some info =>
    let budget := s.streams.remainingBudget streamId
    if budget.1 ≤ 0 ∨ budget.2 ≤ 0 then pure []
    else
      let ds ← leaseNext info.subId info.topicId (min budget.1 i32Max) nowMs info.ackDeadlineSecs
      modify fun s => { s with streams := recordLeasedAll s.streams streamId ds }
      pure ds

/-- The release loop of the stream variants of acknowledge and modify. -/
def recordResolvedAll (r : StreamRegistry) (streamId : Nat) (ackIds : List String) :
    StreamRegistry :=
  ackIds.foldl (fun r ackId =>
    match decodeAckId ackId with
    | some (_, seq, _) => r.recordResolved streamId seq
    | none => r) r

def streamAcknowledge (streamId subId : Nat) (ackIds : List String) : EngineM Unit := do
  acknowledge subId ackIds
  modify fun s => { s with streams := recordResolvedAll s.streams streamId ackIds }

def streamModifyAckDeadline (streamId subId : Nat) (ackIds : List String) (nowMs seconds : Int) :
    EngineM Unit := do
  modifyAckDeadline subId ackIds nowMs seconds
  if seconds ≤ 0 then
    modify fun s => { s with streams := recordResolvedAll s.streams streamId ackIds }

/-- The loop of `on_stream_closed`: a row that cannot be deleted is left. -/
def releaseAll (subId : Nat) : List Nat → EngineM Unit
  | [] => pure ()
  | seq :: seqs => do
    removeLease subId seq
    Hoare.ignore (onKv (deleteDlv subId seq))
    releaseAll subId seqs

def onStreamClosed (streamId : Nat) : EngineM Unit := do
  let s ← get
  setStreams (s.streams.close streamId).1
  match (s.streams.close streamId).2 with
  | none => pure ()
  | some (subId, seqs) => releaseAll subId seqs

/-- The loop of `sweep_expired`: an expired lease of another subscription is
put back, due at `nowMs`. -/
def putBack (t : LeaseTable) (subId : Nat) (nowMs : Int) (expired : List ExpiredLease) :
    LeaseTable :=
  expired.foldl (fun t e =>
    if e.subId = subId then t else t.insert e.subId e.seq nowMs e.attempts e.generation) t

def sweepLeases (t : LeaseTable) (subId : Nat) (nowMs graceMs : Int) : LeaseTable :=
  let r := t.expireUpTo (satSubI64 nowMs graceMs)
  putBack r.1 subId nowMs r.2

def sweepExpired (subId : Nat) (nowMs graceMs : Int) : EngineM Nat := do
  let s ← get
  setLeases (sweepLeases s.leases subId nowMs graceMs)
  pure ((s.leases.expireUpTo (satSubI64 nowMs graceMs)).2.countP (fun e => e.subId = subId))

def insertRow (t : LeaseTable) (e : RowKey × DeliveryRecord) : LeaseTable :=
  t.insert e.1.id e.1.seq e.2.deadlineMs e.2.attempts e.2.generation

/-- The lease table `recover` builds from the persisted rows. -/
def recoveredLeases (dlv : SortedMap RowKey DeliveryRecord) : LeaseTable :=
  dlv.entries.foldl insertRow .empty

/-- A new engine over the rows of `kv`, after `recover`. -/
def Engine.boot (kv : Kv) (deadLettered : List DeadLettered) : Engine :=
  { Engine.new kv deadLettered with leases := recoveredLeases kv.dlv }

def oldestUnackedPublishTsMs (subId topicId : Nat) : EngineM (Option Int) := do
  let cursor ← loadCursor subId
  let s ← get
  let undone := (scanPrefix s.kv.msg topicId).find? (fun row => ¬ cursor.isDone row.1)
  pure (undone.map (fun row => row.2.publishTsMs))

def deleteDlvAll (subId : Nat) : List Nat → KvM Unit
  | [] => pure ()
  | seq :: seqs => do
    deleteDlv subId seq
    deleteDlvAll subId seqs

def restoreCursor (subId : Nat) (cursor : CursorRecord) : EngineM Unit := do
  let s ← get
  setLeases (s.leases.removeAllForSubscription subId).1
  onKv (deleteDlvAll subId (s.leases.removeAllForSubscription subId).2)
  let s ← get
  onKv (deleteDlvAll subId ((scanPrefix s.kv.dlv subId).map Prod.fst))
  saveCursor subId cursor

end OpenPubusb
