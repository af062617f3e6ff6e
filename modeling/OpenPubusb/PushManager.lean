import OpenPubusb.IdleExpiry
import OpenPubusb.Push

/-! The reconciliation of the push dispatchers with the subscriptions. A dispatcher is a
task that opens a stream and leases from it until it is stopped or fails. -/

namespace OpenPubusb

open Hoare

/-- What a dispatcher is started with. -/
structure DispatcherArgs where
  subscriptionFullName : String
  subId : Nat
  ackDeadlineSecs : Int
  minRetryBackoffSecs : Int
  maxRetryBackoffSecs : Int
  deadLetterConfigured : Bool
  pushConfig : PushConfig
  pushTimeoutSecs : Nat
  maxConcurrency : Nat

inductive DispatcherState where
  | starting
  | streaming (streamId : Nat)
  | ended

structure DispatcherTask where
  args : DispatcherArgs
  state : DispatcherState

def DispatcherTask.running (t : DispatcherTask) : Bool :=
  match t.state with
  | .ended => false
  | _ => true

/-- A running dispatcher as the manager knows it. -/
structure PushEntry where
  pushConfig : PushConfig
  handle : Nat

structure PushManager where
  entries : SortedMap Nat PushEntry
  pushTimeoutSecs : Nat
  pushMaxConcurrencyPerSub : Nat

def PushManager.new (pushTimeoutSecs pushMaxConcurrencyPerSub : Nat) : PushManager :=
  ⟨∅, pushTimeoutSecs, pushMaxConcurrencyPerSub⟩

/-- The process: the service, the dispatcher tasks by their handles, and the manager. -/
structure Daemon where
  engine : Engine
  tasks : SortedMap Nat DispatcherTask
  spawned : Nat
  manager : PushManager

namespace Daemon

/-- A process that was just started over the engine. -/
def new (engine : Engine) (pushTimeoutSecs pushMaxConcurrencyPerSub : Nat) : Daemon :=
  ⟨engine, ∅, 0, .new pushTimeoutSecs pushMaxConcurrencyPerSub⟩

def setState (d : Daemon) (handle : Nat) (task : DispatcherTask) (state : DispatcherState) :
    Daemon :=
  { d with tasks := d.tasks.insert handle { task with state := state } }

def opened (d : Daemon) (nowMs : Int) (handle : Nat) : Daemon :=
  match d.tasks.get handle with
  | none => d
  | some task =>
    match task.state with
    | .starting =>
      let r := step d.engine ⟨nowMs, .openStream task.args.subscriptionFullName
        task.args.ackDeadlineSecs (max task.args.maxConcurrency 1 : Nat) 0⟩
      let d := { d with engine := r.2 }
      match r.1 with
      | .opened streamId => d.setState handle task (.streaming streamId)
      | _ => d.setState handle task .ended
    | _ => d

def closed (d : Daemon) (nowMs : Int) (handle : Nat) : Daemon :=
  match d.tasks.get handle with
  | none => d
  | some task =>
    match task.state with
    | .streaming streamId =>
      { d with engine := (step d.engine ⟨nowMs, .closeStream streamId⟩).2 }.setState handle task
        .ended
    | _ => d

/-- One turn of a dispatcher: it opens its stream, or leases from it. The pushes of what
it leases are calls of their own. -/
def poll (d : Daemon) (nowMs : Int) (handle : Nat) : Daemon :=
  match d.tasks.get handle with
  | none => d
  | some task =>
    match task.state with
    | .streaming streamId =>
      let r := step d.engine ⟨nowMs, .leaseForStream streamId⟩
      let d := { d with engine := r.2 }
      match r.1 with
      | .failed _ => d.closed nowMs handle
      | _ => d
    | _ => d.opened nowMs handle

/-- A dispatcher that panics does not close its stream. -/
def panicked (d : Daemon) (handle : Nat) : Daemon :=
  match d.tasks.get handle with
  | none => d
  | some task => d.setState handle task .ended

/-- `DispatcherHandle::stop`: a dispatcher that has not opened its stream yet opens it before
it sees that it is cancelled. -/
def stop (d : Daemon) (nowMs : Int) (handle : Nat) : Daemon :=
  (d.opened nowMs handle).closed nowMs handle

def spawn (d : Daemon) (args : DispatcherArgs) : Daemon :=
  { d with tasks := d.tasks.insert (d.spawned + 1) ⟨args, .starting⟩, spawned := d.spawned + 1 }

def setEntries (d : Daemon) (entries : SortedMap Nat PushEntry) : Daemon :=
  { d with manager := { d.manager with entries := entries } }

def args (d : Daemon) (sub : SubscriptionRecord) (cfg : PushConfig) : DispatcherArgs where
  subscriptionFullName := sub.name
  subId := sub.id
  ackDeadlineSecs := sub.ackDeadlineSecs
  minRetryBackoffSecs := sub.minRetryBackoffSecs
  maxRetryBackoffSecs := sub.maxRetryBackoffSecs
  deadLetterConfigured := sub.deadLetterTopic.isSome
  pushConfig := cfg
  pushTimeoutSecs := d.manager.pushTimeoutSecs
  maxConcurrency := d.manager.pushMaxConcurrencyPerSub

/-- The entry is taken out and its dispatcher is stopped. -/
def stopEntry (d : Daemon) (nowMs : Int) (id : Nat) : Daemon :=
  match d.manager.entries.get id with
  | none => d
  | some entry => (d.setEntries (d.manager.entries.erase id)).stop nowMs entry.handle

def startEntry (d : Daemon) (sub : SubscriptionRecord) : Daemon :=
  match sub.pushConfig with
  | none => d
  | some cfg =>
    (d.spawn (d.args sub cfg)).setEntries
      (d.manager.entries.insert sub.id ⟨cfg, d.spawned + 1⟩)

def needsRestart (d : Daemon) (sub : SubscriptionRecord) : Bool :=
  match sub.pushConfig, d.manager.entries.get sub.id with
  | some cfg, some entry => entry.pushConfig ≠ cfg
  | some _, none => true
  | none, some _ => true
  | none, none => false

def reconcileOne (d : Daemon) (nowMs : Int) (sub : SubscriptionRecord) : Daemon :=
  if d.needsRestart sub then (d.stopEntry nowMs sub.id).startEntry sub else d

def reconcileAll (d : Daemon) (nowMs : Int) : List SubscriptionRecord → Daemon
  | [] => d
  | sub :: subs => (d.reconcileOne nowMs sub).reconcileAll nowMs subs

def stopEntries (d : Daemon) (nowMs : Int) : List Nat → Daemon
  | [] => d
  | id :: ids => (d.stopEntry nowMs id).stopEntries nowMs ids

def stale (d : Daemon) (subs : List SubscriptionRecord) : List Nat :=
  d.manager.entries.keys.filter fun id => id ∉ subs.map SubscriptionRecord.id

def reconcile (d : Daemon) (nowMs : Int) : Daemon :=
  let subs := SubscriptionStore.listAll d.engine.kv
  let d := d.reconcileAll nowMs subs
  d.stopEntries nowMs (d.stale subs)

def shutdown (d : Daemon) (nowMs : Int) : Daemon := d.stopEntries nowMs d.manager.entries.keys

end Daemon

inductive DaemonOp where
  | call (op : Op)
  | poll (handle : Nat)
  | panic (handle : Nat)
  | reconcile
  | shutdown

structure DaemonInput where
  nowMs : Int
  op : DaemonOp

/-- A restart of the service is a new process. -/
def daemonStep (d : Daemon) (i : DaemonInput) : Reply × Daemon :=
  match i.op with
  | .call .restart =>
    let r := step d.engine ⟨i.nowMs, .restart⟩
    (r.1, .new r.2 d.manager.pushTimeoutSecs d.manager.pushMaxConcurrencyPerSub)
  | .call op =>
    let r := step d.engine ⟨i.nowMs, op⟩
    (r.1, { d with engine := r.2 })
  | .poll handle => (.done, d.poll i.nowMs handle)
  | .panic handle => (.done, d.panicked handle)
  | .reconcile => (.done, d.reconcile i.nowMs)
  | .shutdown => (.done, d.shutdown i.nowMs)

/-- The process over an empty store. -/
def daemonStart (pushTimeoutSecs pushMaxConcurrencyPerSub : Nat) : Daemon :=
  .new start pushTimeoutSecs pushMaxConcurrencyPerSub

end OpenPubusb
