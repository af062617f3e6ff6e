import OpenPubusb.Bytes
import OpenPubusb.Kv

/-! In-memory lease tracking: which `(subscription, seq)` pairs are checked
out, until when, and how many times. The table keeps two indexes, one by key
and one by deadline; `Coherent` says that they describe the same leases. -/

namespace OpenPubusb

structure Lease where
  subId : Nat
  seq : Nat
  deadlineMs : Int
  attempts : Nat
  generation : Nat
  deriving DecidableEq

inductive AckOutcome where
  | applied (lease : Lease)
  | unknown
  | staleGeneration
  | malformed
  deriving DecidableEq

structure ExpiredLease where
  subId : Nat
  seq : Nat
  attempts : Nat
  generation : Nat
  deriving DecidableEq

/-- Key of the deadline index. -/
structure DeadlineKey where
  deadlineMs : Int
  subId : Nat
  seq : Nat
  deriving DecidableEq

def DeadlineKey.toLexTriple (k : DeadlineKey) : Int ×ₗ Nat ×ₗ Nat :=
  toLex (k.deadlineMs, toLex (k.subId, k.seq))

theorem DeadlineKey.toLexTriple_injective : Function.Injective DeadlineKey.toLexTriple := by
  rintro ⟨a, b, c⟩ ⟨a', b', c'⟩ h
  simp only [toLexTriple, toLex_inj, Prod.mk.injEq] at h
  rw [h.1, h.2.1, h.2.2]

instance : LinearOrder DeadlineKey :=
  LinearOrder.lift' DeadlineKey.toLexTriple DeadlineKey.toLexTriple_injective

def encodeAckId (subId seq generation : Nat) : String :=
  String.ofList (Bytes.encode64 (Bytes.toBe64 subId ++ Bytes.toBe64 seq ++ Bytes.toBe64 generation))

def decodeAckId (ackId : String) : Option (Nat × Nat × Nat) := do
  let bytes ← Bytes.decode64 ackId.toList
  if bytes.length ≠ 24 then none
  else some (Bytes.fromBe (bytes.take 8), Bytes.fromBe ((bytes.drop 8).take 8),
    Bytes.fromBe (bytes.drop 16))

structure LeaseTable where
  byDeadline : SortedMap DeadlineKey Unit
  byKey : SortedMap RowKey Lease

namespace LeaseTable

def empty : LeaseTable := ⟨∅, ∅⟩

def get (t : LeaseTable) (subId seq : Nat) : Option Lease := t.byKey.get ⟨subId, seq⟩

/-- The table part of `LeaseTable::insert`; the ack id it returns is
`encodeAckId subId seq generation`. -/
def insert (t : LeaseTable) (subId seq : Nat) (deadlineMs : Int) (attempts generation : Nat) :
    LeaseTable :=
  let byDeadline :=
    match t.get subId seq with
    | some old => t.byDeadline.erase ⟨old.deadlineMs, subId, seq⟩
    | none => t.byDeadline
  { byDeadline := byDeadline.insert ⟨deadlineMs, subId, seq⟩ ()
    byKey := t.byKey.insert ⟨subId, seq⟩ ⟨subId, seq, deadlineMs, attempts, generation⟩ }

/-- The table part of `LeaseTable::remove`; the lease it returns is
`t.get subId seq`. -/
def remove (t : LeaseTable) (subId seq : Nat) : LeaseTable :=
  match t.get subId seq with
  | none => t
  | some lease =>
    { byDeadline := t.byDeadline.erase ⟨lease.deadlineMs, subId, seq⟩
      byKey := t.byKey.erase ⟨subId, seq⟩ }

/-- The checks `ack` and `extend` share: the id decodes, the lease exists and
is at the generation the id names. -/
def resolveAck (t : LeaseTable) (ackId : String)
    (apply : Nat → Nat → Lease → LeaseTable × AckOutcome) : LeaseTable × AckOutcome :=
  match decodeAckId ackId with
  | none => (t, .malformed)
  | some (subId, seq, generation) =>
    match t.get subId seq with
    | none => (t, .unknown)
    | some lease =>
      if lease.generation ≠ generation then (t, .staleGeneration) else apply subId seq lease

def ack (t : LeaseTable) (ackId : String) : LeaseTable × AckOutcome :=
  t.resolveAck ackId fun subId seq lease => (t.remove subId seq, .applied lease)

/-- The deadline `extend` sets: `secs ≤ 0` is an immediate nack. The sum is
a plain `i64` addition in the source. -/
def extendedDeadline (nowMs secs : Int) : Int :=
  if secs ≤ 0 then nowMs else wrapI64 (nowMs + secs * 1000)

/-- Moves the lease `lease` to the deadline `deadlineMs`. -/
def reschedule (t : LeaseTable) (subId seq : Nat) (lease : Lease) (deadlineMs : Int) : LeaseTable :=
  { byDeadline :=
      (t.byDeadline.erase ⟨lease.deadlineMs, subId, seq⟩).insert ⟨deadlineMs, subId, seq⟩ ()
    byKey := t.byKey.insert ⟨subId, seq⟩ { lease with deadlineMs := deadlineMs } }

def extend (t : LeaseTable) (ackId : String) (nowMs secs : Int) : LeaseTable × AckOutcome :=
  t.resolveAck ackId fun subId seq lease =>
    (t.reschedule subId seq lease (extendedDeadline nowMs secs),
      .applied { lease with deadlineMs := extendedDeadline nowMs secs })

def nackNow (t : LeaseTable) (subId seq : Nat) (nowMs : Int) : LeaseTable × Option Lease :=
  match t.get subId seq with
  | none => (t, none)
  | some lease =>
    (t.reschedule subId seq lease nowMs, some { lease with deadlineMs := nowMs })

/-- The loop of `expire_up_to` over the expired deadline keys. -/
def expireKeys (t : LeaseTable) : List DeadlineKey → LeaseTable × List ExpiredLease
  | [] => (t, [])
  | k :: ks =>
    let t' : LeaseTable := { t with byDeadline := t.byDeadline.erase k }
    match t'.get k.subId k.seq with
    | none => t'.expireKeys ks
    | some lease =>
      let r := expireKeys { t' with byKey := t'.byKey.erase ⟨k.subId, k.seq⟩ } ks
      (r.1, ⟨k.subId, k.seq, lease.attempts, lease.generation⟩ :: r.2)

def expireUpTo (t : LeaseTable) (nowMs : Int) : LeaseTable × List ExpiredLease :=
  t.expireKeys (t.byDeadline.keys.filter (fun k => k.deadlineMs ≤ nowMs))

/-- The seqs of `subId` that have a lease, in key order. -/
def seqsOf (t : LeaseTable) (subId : Nat) : List Nat :=
  (t.byKey.keys.filter (fun k => k.id = subId)).map RowKey.seq

def removeAll (t : LeaseTable) (subId : Nat) : List Nat → LeaseTable
  | [] => t
  | seq :: seqs => (t.remove subId seq).removeAll subId seqs

def removeAllForSubscription (t : LeaseTable) (subId : Nat) : LeaseTable × List Nat :=
  (t.removeAll subId (t.seqsOf subId), t.seqsOf subId)

theorem get_empty (subId seq : Nat) : empty.get subId seq = none := rfl

theorem get_insert (t : LeaseTable) (subId seq : Nat) (d : Int) (a g s q : Nat) :
    (t.insert subId seq d a g).get s q =
      if s = subId ∧ q = seq then some ⟨subId, seq, d, a, g⟩ else t.get s q := by
  simp only [get, insert, SortedMap.get_insert, RowKey.mk.injEq]

theorem get_remove (t : LeaseTable) (subId seq s q : Nat) :
    (t.remove subId seq).get s q = if s = subId ∧ q = seq then none else t.get s q := by
  unfold remove
  cases h : t.get subId seq with
  | none =>
    split_ifs with he
    · rw [he.1, he.2, h]
    · rfl
  | some lease => simp only [get, SortedMap.get_erase, RowKey.mk.injEq]

theorem get_reschedule (t : LeaseTable) (subId seq : Nat) (lease : Lease) (d : Int) (s q : Nat) :
    (t.reschedule subId seq lease d).get s q =
      if s = subId ∧ q = seq then some { lease with deadlineMs := d } else t.get s q := by
  simp only [get, reschedule, SortedMap.get_insert, RowKey.mk.injEq]

/-- The ack id names a lease of the table at its current generation. -/
def Names (t : LeaseTable) (ackId : String) (subId seq : Nat) : Prop :=
  ∃ lease, t.get subId seq = some lease ∧ decodeAckId ackId = some (subId, seq, lease.generation)

theorem resolveAck_cases (t : LeaseTable) (ackId : String)
    (apply : Nat → Nat → Lease → LeaseTable × AckOutcome) :
    (∃ subId seq lease, t.get subId seq = some lease ∧
      decodeAckId ackId = some (subId, seq, lease.generation) ∧
      t.resolveAck ackId apply = apply subId seq lease) ∨
    ((∀ subId seq, ¬ t.Names ackId subId seq) ∧
      (t.resolveAck ackId apply).1 = t ∧ ∀ lease, (t.resolveAck ackId apply).2 ≠ .applied lease) := by
  unfold resolveAck
  cases hd : decodeAckId ackId with
  | none => exact Or.inr ⟨fun s q ⟨l, _, h⟩ => by simp [hd] at h, rfl, fun l => by simp⟩
  | some k =>
    obtain ⟨subId, seq, generation⟩ := k
    have hnames : ∀ {s q : Nat}, t.Names ackId s q →
        ∃ l, t.get subId seq = some l ∧ l.generation = generation := by
      rintro s q ⟨l, hl, h⟩
      simp only [hd, Option.some.injEq, Prod.mk.injEq] at h
      exact ⟨l, by rw [h.1, h.2.1, hl], h.2.2.symm⟩
    cases hg : t.get subId seq with
    | none =>
      refine Or.inr ⟨fun s q hn => ?_, by simp [hg], fun l => by simp [hg]⟩
      obtain ⟨l, hl, _⟩ := hnames hn
      simp [hg] at hl
    | some lease =>
      by_cases he : lease.generation = generation
      · subst he
        exact Or.inl ⟨subId, seq, lease, hg, rfl, by simp [hg]⟩
      · refine Or.inr ⟨fun s q hn => ?_, by simp [hg, he], fun l => by simp [hg, he]⟩
        obtain ⟨l, hl, hgen⟩ := hnames hn
        rw [hg, Option.some.injEq] at hl
        exact he (hl ▸ hgen)

end LeaseTable

end OpenPubusb
