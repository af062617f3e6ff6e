import OpenPubusb.PushManager
import OpenPubusb.StreamLifetime

/-! The tasks of one push dispatcher: its loop, which leases and hands out permits, and one
task for each delivery, which holds its permit until the answer of the endpoint is settled. -/

namespace OpenPubusb

namespace Dispatcher

/-- Where the loop of `run` stands. -/
inductive Loop where
  | opening
  /-- The top of the loop. -/
  | ready
  /-- The rest of a leased batch, whose messages wait for a permit. -/
  | dispatching (messages : List PulledMessage)
  | waiting
  /-- Acquires every permit, and then closes the stream. -/
  | draining
  | stopped

/-- A task of `deliver_one`. -/
inductive Delivery where
  | posting (message : PulledMessage)
  /-- The call was made; the permit is still held. -/
  | settled

structure State where
  engine : Engine
  streamId : Option Nat
  loop : Loop
  permits : Nat
  deliveries : List Delivery
  cancelled : Bool

inductive Event where
  /-- Any other caller of the service. -/
  | call (i : Input)
  /-- The loop takes its next step; a client that cannot be built ends the dispatcher. -/
  | turn (nowMs : Int) (clientBuilt : Bool)
  /-- The wait on an empty lease ends: a publish, or the poll interval. -/
  | wake
  | cancel
  /-- The request of a delivery is over. -/
  | settle (delivery : Nat) (success : Bool) (nowMs : Int)
  /-- The task of a delivery ends. -/
  | release (delivery : Nat)

/-- `max_concurrency.max(1)` -/
def concurrency (args : DispatcherArgs) : Nat := max args.maxConcurrency 1

def openOp (args : DispatcherArgs) : Op :=
  .openStream args.subscriptionFullName args.ackDeadlineSecs (concurrency args) 0

def settleOp (args : DispatcherArgs) (streamId : Nat) (msg : PulledMessage) (success : Bool) : Op :=
  if success then .streamAcknowledge streamId args.subId [msg.ackId]
  else .streamModifyAckDeadline streamId args.subId [msg.ackId]
    (deadlineSecs (backoffForAttempts msg.deliveryAttempt args.minRetryBackoffSecs
      args.maxRetryBackoffSecs))

def afterLease : Reply → Loop
  | .delivered _ (d :: ds) => .dispatching ((d :: ds).map (.ofDelivered true))
  | .failed _ => .draining
  | _ => .waiting

namespace State

def new (engine : Engine) (args : DispatcherArgs) : State :=
  ⟨engine, none, .opening, concurrency args, [], false⟩

/-- A call of the service on the state. -/
def calls (st : State) (nowMs : Int) (op : Op) (next : Reply → State → State) :
    Option Input × State :=
  (some ⟨nowMs, op⟩, next (step st.engine ⟨nowMs, op⟩).1
    { st with engine := (step st.engine ⟨nowMs, op⟩).2 })

/-- Other callers only name the streams that they have opened themselves, and the process
keeps running. -/
def callable (st : State) (i : Input) : Bool :=
  match i.op with
  | .restart => false
  | op => (streamNamed op).all fun id =>
    decide (id ≤ st.engine.streams.nextId) && decide (st.streamId ≠ some id)

def turn (args : DispatcherArgs) (st : State) (nowMs : Int) (clientBuilt : Bool) :
    Option Input × State :=
  match st.loop, st.streamId with
  | .opening, _ =>
    st.calls nowMs (openOp args) fun
      | .opened id, st =>
        { st with streamId := some id, loop := if clientBuilt then .ready else .draining }
      | _, st => { st with loop := .stopped }
  | .ready, some id =>
    if st.cancelled then (none, { st with loop := .draining })
    else st.calls nowMs (.leaseForStream id) fun reply st => { st with loop := afterLease reply }
  | .dispatching (msg :: msgs), _ =>
    match st.permits with
    | 0 => (none, st)
    | permits + 1 =>
      (none, { st with
        loop := .dispatching msgs
        permits := permits
        deliveries := st.deliveries ++ [.posting msg] })
  | .dispatching [], _ => (none, { st with loop := .ready })
  | .waiting, _ => (none, if st.cancelled then { st with loop := .draining } else st)
  | .draining, some id =>
    if st.permits = concurrency args then
      st.calls nowMs (.closeStream id) fun _ st => { st with loop := .stopped }
    else (none, st)
  | _, _ => (none, st)

/-- One event: the call of the service it makes, and the state after it. -/
def serve (args : DispatcherArgs) (st : State) : Event → Option Input × State
  | .call i =>
    if st.callable i then (some i, { st with engine := (step st.engine i).2 }) else (none, st)
  | .turn nowMs clientBuilt => st.turn args nowMs clientBuilt
  | .wake =>
    match st.loop with
    | .waiting => (none, { st with loop := .ready })
    | _ => (none, st)
  | .cancel => (none, { st with cancelled := true })
  | .settle delivery success nowMs =>
    match st.deliveries[delivery]?, st.streamId with
    | some (.posting msg), some id =>
      st.calls nowMs (settleOp args id msg success) fun _ st =>
        { st with deliveries := st.deliveries.set delivery .settled }
    | _, _ => (none, st)
  | .release delivery =>
    match st.deliveries[delivery]? with
    | some .settled =>
      (none, { st with
        permits := st.permits + 1
        deliveries := st.deliveries.eraseIdx delivery })
    | _ => (none, st)

end State

/-- The process after a run of events; the dispatcher is spawned over the empty store, and
other callers set it up before its first turn. -/
def reach (args : DispatcherArgs) (es : List Event) : State :=
  Run.final (State.serve args) (.new start args) es

/-- The calls of the service that a run makes, in order. -/
def calls (args : DispatcherArgs) (es : List Event) : List Input :=
  (Run.trace (State.serve args) (.new start args) es).filterMap Run.Transition.reply

theorem ignore_eq_step {m : EngineM Unit} {op : Op} {nowMs : Int}
    (h : perform nowMs op = m >>= fun _ => pure .done) (s : Engine) :
    Hoare.ignore m s = .ok () (step s ⟨nowMs, op⟩).2 := by
  unfold step Hoare.ignore Hoare.succeeds
  simp only [h, bind, EStateM.bind]
  cases m s <;> rfl

theorem deliverOne_eq_step (args : DispatcherArgs) (streamId : Nat) (msg : PulledMessage)
    (success : Bool) (nowMs : Int) (s : Engine) :
    deliverOne success streamId args.subId msg args.minRetryBackoffSecs args.maxRetryBackoffSecs
      nowMs s = .ok () (step s ⟨nowMs, settleOp args streamId msg success⟩).2 := by
  cases success with
  | true => exact ignore_eq_step rfl s
  | false => exact ignore_eq_step rfl s

end Dispatcher

end OpenPubusb
