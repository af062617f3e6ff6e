import OpenPubusb.Engine

/-! The abstract view of one message on one subscription. A slot holds the lease
in memory, the persisted copy of it, and whether the message may still be
delivered. Every operation of the service acts on a slot through one of the
effects below; what it may do is the guard of the effect. -/

namespace OpenPubusb

structure Slot where
  lease : Option DeliveryRecord
  row : Option DeliveryRecord
  pending : Bool

inductive Effect where
  | idle
  /-- The message is leased to a caller. -/
  | granted (r : DeliveryRecord)
  /-- The message goes to the dead-letter topic. Without `saved` the cursor keeps
  it open, because the call failed before it wrote the cursor. -/
  | forwarded (saved : Bool)
  /-- The message cannot be delivered any more. -/
  | retired (rowDropped : Bool)
  | acked
  /-- An acknowledgement sent to this subscription named another one's lease. -/
  | marked
  /-- An acknowledgement sent to another subscription named this lease. -/
  | stolen
  | modified (deadlineMs : Int)
  /-- The sweep of the subscription forgets a lease due by `limitMs`. -/
  | dropped (limitMs : Int)
  /-- The sweep of another subscription puts the lease back, due now. -/
  | postponed (limitMs nowMs : Int)
  /-- The stream that tracks the message is closed. -/
  | released
  /-- A seek replaces the cursor. -/
  | reset (pending : Bool)
  /-- The lease table is rebuilt from the rows. -/
  | recovered
  /-- The subscription is created. -/
  | attached (pending : Bool)

def Effect.apply (x : Slot) : Effect → Slot
  | idle => x
  | granted r => { x with lease := some r, row := some r }
  | forwarded saved => ⟨none, none, x.pending && !saved⟩
  | retired rowDropped => ⟨x.lease, if rowDropped then none else x.row, false⟩
  | acked => ⟨none, none, false⟩
  | marked => ⟨x.lease, none, false⟩
  | stolen => { x with lease := none }
  | modified d =>
    let l := x.lease.map (fun r => { r with deadlineMs := d })
    ⟨l, l, x.pending⟩
  | dropped _ => { x with lease := none }
  | postponed _ now => { x with lease := x.lease.map (fun r => { r with deadlineMs := now }) }
  | released => ⟨none, none, x.pending⟩
  | reset p => ⟨none, none, p⟩
  | recovered => { x with lease := x.row }
  | attached p => { x with pending := p }

/-- The retry policy lets the message be delivered again at `nowMs`. -/
def ReclaimPolicy.Passes (policy : ReclaimPolicy) (nowMs : Int) (r : DeliveryRecord) : Prop :=
  policy.retryPolicyExplicit = true → policy.eligibleAt r.deadlineMs r.attempts ≤ nowMs

/-- The message is due for a delivery after `n` earlier ones. -/
def Slot.Due (x : Slot) (policy : ReclaimPolicy) (nowMs : Int) (n : Nat) : Prop :=
  match x.lease, x.row with
  | some l, _ => l.deadlineMs ≤ nowMs ∧ policy.Passes nowMs l ∧ n = l.attempts
  | none, some r => policy.Passes nowMs r ∧ n = r.attempts
  | none, none => n = 0

def Effect.Enabled (policy : ReclaimPolicy) (nowMs : Int) (x : Slot) : Effect → Prop
  | granted r => x.pending = true ∧
      ∃ n, x.Due policy nowMs n ∧ r.attempts = satSuccU32 n ∧ r.generation = r.attempts
  | forwarded _ => x.pending = true ∧
      ∃ n, x.Due policy nowMs n ∧ shouldDeadLetter n policy.deadLetter = true
  | acked => x.lease ≠ none
  | modified _ => x.lease ≠ none
  | dropped limit => ∃ l, x.lease = some l ∧ l.deadlineMs ≤ limit
  | postponed limit now => now = nowMs ∧ ∃ l, x.lease = some l ∧ l.deadlineMs ≤ limit
  | _ => True

def Lease.record (l : Lease) : DeliveryRecord := ⟨l.deadlineMs, l.attempts, l.generation⟩

end OpenPubusb
