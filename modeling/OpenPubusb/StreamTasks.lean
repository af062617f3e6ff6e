import OpenPubusb.StreamClose
import OpenPubusb.Timestamps

/-! `StreamingPull`: the server with any number of streams, each with a task that reads the
client's requests, a task that leases and sends, and a bounded channel to the client. One event
is one atomic move of one task, of a client, or of some other caller of the service. -/

namespace OpenPubusb

structure StreamingPullRequest where
  subscription : String
  ackIds : List String
  modifyDeadlineSeconds : List Int
  modifyDeadlineAckIds : List String
  streamAckDeadlineSeconds : Int
  maxOutstandingMessages : Int
  maxOutstandingBytes : Int

inductive StreamingPullResponse where
  | subscriptionProperties (exactlyOnceDeliveryEnabled messageOrderingEnabled : Bool)
  | receivedMessages (ms : List PulledMessage)

def responseChannelCapacity : Nat := 16

/-- What `streaming_pull` checks of the first request, and the call it makes for it. -/
def firstCall (req : StreamingPullRequest) : Except Status Op :=
  if req.subscription = "" then
    .error ⟨.invalidArgument, "the first request must set `subscription`"⟩
  else if ¬ (10 ≤ req.streamAckDeadlineSeconds ∧ req.streamAckDeadlineSeconds ≤ 600) then
    .error ⟨.invalidArgument, "stream_ack_deadline_seconds must be between 10 and 600"⟩
  else .ok (.openStream req.subscription req.streamAckDeadlineSeconds req.maxOutstandingMessages
    req.maxOutstandingBytes)

/-- The calls of `apply_request`; the first that fails ends it. -/
def applyRequest (streamId subId : Nat) (req : StreamingPullRequest) : Except Status (List Op) :=
  if req.modifyDeadlineSeconds.length ≠ req.modifyDeadlineAckIds.length then
    .error ⟨.invalidArgument,
      "modify_deadline_seconds and modify_deadline_ack_ids must have the same length"⟩
  else .ok
    ((if req.ackIds = [] then [] else [.streamAcknowledge streamId subId req.ackIds]) ++
      (req.modifyDeadlineAckIds.zip req.modifyDeadlineSeconds).map fun p =>
        .streamModifyAckDeadline streamId subId [p.1] p.2)

/-- Where `recv_loop` is. Up to `reading` it is `streaming_pull` itself that runs, on the first
request. -/
inductive RecvTask where
  | opening (calls : List Op)
  | reading
  | applying (calls : List Op)
  | failing (status : Status)
  | ended

/-- Where `send_loop` is. -/
inductive SendTask where
  | unspawned
  | first
  | selecting
  | sending (ds : List Delivered)
  | aborting (status : Status)
  | closing
  | ended

structure Conn where
  subId : Nat
  exactlyOnceDeliveryEnabled : Bool
  messageOrderingEnabled : Bool
  recv : RecvTask
  send : SendTask
  /-- The status that `streaming_pull` returns when it fails on the first request. -/
  rejected : Option Status
  cancelled : Bool
  /-- The receiving end of the channel is gone. -/
  dropped : Bool
  /-- Sent and not read. -/
  channel : List (Except Status StreamingPullResponse)
  /-- What the client has read. -/
  received : List (Except Status StreamingPullResponse)

/-- What a poll of the incoming stream gives. -/
inductive Incoming where
  | request (req : StreamingPullRequest)
  | halfClosed
  | transportError

/-- The branch that `select!` takes in `send_loop`. -/
inductive Branch where
  | cancelled
  | shutdown
  | deadline
  | lease

/-- What a task does next: nothing, as the call it waits in is not ready; a move of its own;
or one call of the service, with what follows from the reply. -/
inductive Move where
  | wait
  | goto (c : Conn)
  | call (op : Op) (next : Reply → Conn)

namespace Conn

/-- `tx.send(item).await`, with what follows when the item is in the channel and when the
receiving end is gone. -/
def push (c : Conn) (item : Except Status StreamingPullResponse) (sent gone : Conn → Conn) :
    Move :=
  if c.dropped then .goto (gone c)
  else if c.channel.length < responseChannelCapacity then
    .goto (sent { c with channel := c.channel ++ [item] })
  else .wait

def recvEnds (c : Conn) : Conn := { c with recv := .ended, cancelled := true }

/-- The move of `streaming_pull` and of `recv_loop`; `incoming` is what the stream of requests
has ready. -/
def recvMove (streamId : Nat) (c : Conn) (incoming : Option Incoming) : Move :=
  match c.recv with
  | .opening [] => .goto { c with recv := .reading, send := .first }
  | .opening (op :: calls) => .call op fun
    | .failed e => { c with recv := .ended, send := .closing, rejected := some (toStatus e) }
    | _ => { c with recv := .opening calls }
  | .reading =>
    match incoming with
    | none => if c.cancelled then .goto c.recvEnds else .wait
    | some (.request req) =>
      match applyRequest streamId c.subId req with
      | .error status => .goto { c with recv := .failing status }
      | .ok calls => .goto { c with recv := .applying calls }
    | some _ => .goto c.recvEnds
  | .applying [] => .goto { c with recv := .reading }
  | .applying (op :: calls) => .call op fun
    | .failed e => { c with recv := .failing (toStatus e) }
    | _ => { c with recv := .applying calls }
  | .failing status => c.push (.error status) recvEnds recvEnds
  | .ended => .wait

def sendCloses (c : Conn) : Conn := { c with send := .closing }

def sendSelects (c : Conn) : Conn := { c with send := .selecting }

/-- The move of `send_loop`; `branch` is the branch of `select!` that is taken. -/
def sendMove (streamId : Nat) (shutdown : Bool) (c : Conn) (branch : Branch) : Move :=
  match c.send with
  | .unspawned => .wait
  | .first =>
    c.push (.ok (.subscriptionProperties c.exactlyOnceDeliveryEnabled c.messageOrderingEnabled))
      sendSelects sendCloses
  | .selecting =>
    match branch with
    | .cancelled => if c.cancelled then .goto c.sendCloses else .wait
    | .shutdown =>
      if shutdown then
        .goto { c with send := .aborting ⟨.unavailable, "server is shutting down"⟩ }
      else .wait
    | .deadline =>
      .goto { c with
        send := .aborting ⟨.unavailable, "StreamingPull stream lifetime elapsed; reconnect"⟩ }
    | .lease => .call (.leaseForStream streamId) fun
      | .delivered _ (d :: ds) => { c with send := .sending (d :: ds) }
      | .failed e => { c with send := .aborting (toStatus e) }
      | _ => c
  | .sending ds =>
    c.push (.ok (.receivedMessages (ds.map (.ofDelivered true)))) sendSelects sendCloses
  | .aborting status => c.push (.error status) sendCloses sendCloses
  | .closing => .call (.closeStream streamId) fun _ => { c with send := .ended }
  | .ended => .wait

def ofFirst (streamId : Nat) (sub : SubscriptionRecord) (req : StreamingPullRequest) : Conn :=
  let opened : Conn :=
    { subId := sub.id
      exactlyOnceDeliveryEnabled := sub.enableExactlyOnceDelivery
      messageOrderingEnabled := sub.enableMessageOrdering
      recv := .ended
      send := .closing
      rejected := none
      cancelled := false
      dropped := false
      channel := []
      received := [] }
  match applyRequest streamId sub.id req with
  | .error status => { opened with rejected := some status }
  | .ok calls => { opened with recv := .opening calls, send := .unspawned }

def read (c : Conn) : Conn :=
  match c.channel with
  | [] => c
  | item :: channel =>
    if c.dropped then c else { c with channel := channel, received := c.received ++ [item] }

end Conn

structure Server where
  engine : Engine
  conns : SortedMap Nat Conn
  /-- The shutdown token is cancelled. -/
  shutdown : Bool

namespace Server

def boot : Server := ⟨start, ∅, false⟩

inductive Event where
  /-- Any other caller: a unary call, a sweep, a push dispatcher. -/
  | call (i : Input)
  | streamingPull (nowMs : Int) (req : StreamingPullRequest)
  | recv (streamId : Nat) (nowMs : Int) (incoming : Option Incoming)
  | send (streamId : Nat) (nowMs : Int) (branch : Branch)
  | read (streamId : Nat)
  | drop (streamId : Nat)
  | shutdown

end Server

/-- The stream that a call names. -/
def streamNamed : Op → Option Nat
  | .updateStream streamId _ _ _ => some streamId
  | .leaseForStream streamId => some streamId
  | .streamAcknowledge streamId _ _ => some streamId
  | .streamModifyAckDeadline streamId _ _ _ => some streamId
  | .closeStream streamId => some streamId
  | _ => none

namespace Server

/-- Other callers only name the streams they have opened themselves, and the process keeps
running. -/
def callable (srv : Server) (i : Input) : Bool :=
  match i.op with
  | .restart => false
  | op => (streamNamed op).all fun streamId =>
    decide (streamId ≤ srv.engine.streams.nextId) && (srv.conns.get streamId).isNone

/-- The call of the service, with the connection that its reply leads to. -/
def after (srv : Server) (i : Input) (streamId : Nat) (next : Reply → Conn) : Server :=
  { srv with
    engine := (step srv.engine i).2
    conns := srv.conns.insert streamId (next (step srv.engine i).1) }

def run (srv : Server) (streamId : Nat) (nowMs : Int) : Move → Option Input × Server
  | .wait => (none, srv)
  | .goto c => (none, { srv with conns := srv.conns.insert streamId c })
  | .call op next => (some ⟨nowMs, op⟩, srv.after ⟨nowMs, op⟩ streamId next)

/-- `streaming_pull` up to the call that opens the stream. -/
def accept (srv : Server) (nowMs : Int) (req : StreamingPullRequest) : Option Input × Server :=
  match firstCall req with
  | .error _ => (none, srv)
  | .ok op =>
    (some ⟨nowMs, op⟩,
      match (step srv.engine ⟨nowMs, op⟩).1, SubscriptionStore.get srv.engine.kv req.subscription with
      | .opened streamId, .ok sub =>
        srv.after ⟨nowMs, op⟩ streamId fun _ => .ofFirst streamId sub req
      | _, _ => { srv with engine := (step srv.engine ⟨nowMs, op⟩).2 })

/-- One event: the call of the service it makes, and the state after it. -/
def serve (srv : Server) : Event → Option Input × Server
  | .call i =>
    if srv.callable i then (some i, { srv with engine := (step srv.engine i).2 })
    else (none, srv)
  | .streamingPull nowMs req => srv.accept nowMs req
  | .recv streamId nowMs incoming =>
    match srv.conns.get streamId with
    | none => (none, srv)
    | some c => srv.run streamId nowMs (c.recvMove streamId incoming)
  | .send streamId nowMs branch =>
    match srv.conns.get streamId with
    | none => (none, srv)
    | some c => srv.run streamId nowMs (c.sendMove streamId srv.shutdown branch)
  | .read streamId =>
    match srv.conns.get streamId with
    | none => (none, srv)
    | some c => (none, { srv with conns := srv.conns.insert streamId c.read })
  | .drop streamId =>
    match srv.conns.get streamId with
    | none => (none, srv)
    | some c => (none, { srv with conns := srv.conns.insert streamId { c with dropped := true } })
  | .shutdown => (none, { srv with shutdown := true })

/-- The server after a run of events from the empty store. -/
def reach (es : List Event) : Server := Run.final serve boot es

/-- The calls of the service that a run makes, in order. -/
def calls (es : List Event) : List Input := (Run.trace serve boot es).filterMap Run.Transition.reply

end Server

end OpenPubusb
