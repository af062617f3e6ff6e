import OpenPubusb.Error
import OpenPubusb.SortedMap

/-! `StreamingPull` session bookkeeping: which outstanding seqs belong to
which open stream, and the flow-control budget of each stream. -/

namespace OpenPubusb

structure StreamInfo where
  subId : Nat
  topicId : Nat
  ackDeadlineSecs : Int
  /-- Not positive means unlimited. -/
  maxOutstandingMessages : Int
  /-- Not positive means unlimited. -/
  maxOutstandingBytes : Int

structure SessionState where
  info : StreamInfo
  /-- Payload size of every seq leased to the stream and not yet resolved. -/
  outstanding : SortedMap Nat Nat
  outstandingBytes : Int

structure StreamRegistry where
  nextId : Nat
  sessions : SortedMap Nat SessionState

namespace StreamRegistry

def empty : StreamRegistry := ⟨0, ∅⟩

/-- The new stream's id is `r.nextId + 1`. -/
def openStream (r : StreamRegistry) (info : StreamInfo) : StreamRegistry :=
  { nextId := r.nextId + 1
    sessions := r.sessions.insert (r.nextId + 1) ⟨info, ∅, 0⟩ }

def close (r : StreamRegistry) (streamId : Nat) : StreamRegistry × Option (Nat × List Nat) :=
  ({ r with sessions := r.sessions.erase streamId },
    (r.sessions.get streamId).map (fun s => (s.info.subId, s.outstanding.keys)))

def info (r : StreamRegistry) (streamId : Nat) : Option StreamInfo :=
  (r.sessions.get streamId).map SessionState.info

/-- Changes the session of an open stream; a closed one is ignored. -/
def modifySession (r : StreamRegistry) (streamId : Nat) (f : SessionState → SessionState) :
    StreamRegistry :=
  match r.sessions.get streamId with
  | none => r
  | some s => { r with sessions := r.sessions.insert streamId (f s) }

def update (r : StreamRegistry) (streamId : Nat) (ackDeadlineSecs maxOutstandingMessages
    maxOutstandingBytes : Option Int) : StreamRegistry :=
  r.modifySession streamId fun s =>
    { s with info :=
      { s.info with
        ackDeadlineSecs := ackDeadlineSecs.getD s.info.ackDeadlineSecs
        maxOutstandingMessages := maxOutstandingMessages.getD s.info.maxOutstandingMessages
        maxOutstandingBytes := maxOutstandingBytes.getD s.info.maxOutstandingBytes } }

def sessionBudget (s : SessionState) : Int × Int :=
  (if s.info.maxOutstandingMessages ≤ 0 then i64Max
    else max (s.info.maxOutstandingMessages - s.outstanding.size) 0,
   if s.info.maxOutstandingBytes ≤ 0 then i64Max
    else max (s.info.maxOutstandingBytes - s.outstandingBytes) 0)

def remainingBudget (r : StreamRegistry) (streamId : Nat) : Int × Int :=
  match r.sessions.get streamId with
  | none => (0, 0)
  | some s => sessionBudget s

def leased (s : SessionState) (seq payloadBytes : Nat) : SessionState :=
  { s with
    outstanding := s.outstanding.insert seq payloadBytes
    outstandingBytes := satAddI64 s.outstandingBytes payloadBytes }

def recordLeased (r : StreamRegistry) (streamId seq payloadBytes : Nat) : StreamRegistry :=
  r.modifySession streamId fun s => leased s seq payloadBytes

def resolved (s : SessionState) (seq : Nat) : SessionState :=
  match s.outstanding.get seq with
  | none => s
  | some payloadBytes =>
    { s with
      outstanding := s.outstanding.erase seq
      outstandingBytes := satSubI64 s.outstandingBytes payloadBytes }

def recordResolved (r : StreamRegistry) (streamId seq : Nat) : StreamRegistry :=
  r.modifySession streamId fun s => resolved s seq

theorem get_modifySession (r : StreamRegistry) (streamId id : Nat)
    (f : SessionState → SessionState) :
    (r.modifySession streamId f).sessions.get id =
      if id = streamId then (r.sessions.get id).map f else r.sessions.get id := by
  unfold modifySession
  cases h : r.sessions.get streamId with
  | none =>
    split_ifs with he
    · rw [he, h]
      rfl
    · rfl
  | some s =>
    simp only [SortedMap.get_insert]
    split_ifs with he
    · rw [he, h]
      rfl
    · rfl

theorem nextId_modifySession (r : StreamRegistry) (streamId : Nat)
    (f : SessionState → SessionState) : (r.modifySession streamId f).nextId = r.nextId := by
  unfold modifySession
  cases r.sessions.get streamId <;> rfl

end StreamRegistry

end OpenPubusb
