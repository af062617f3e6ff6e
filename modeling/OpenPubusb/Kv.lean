import OpenPubusb.Hoare
import OpenPubusb.Records

/-! The keyspace-scoped store. Each keyspace is a sorted map from its typed
key to its decoded value, so a prefix scan visits rows in key order. A write
can fail: `ok i` says whether the `i`-th write issued to the store takes
effect. The store of a healthy server has `ok` constantly true, and a store
that is cut after `n` writes has `ok i` exactly for `i < n`. -/

namespace OpenPubusb

/-- Key of the `msg` (topic, seq), `dlv` (subscription, seq) and `idx`
(topic, subscription) keyspaces. -/
structure RowKey where
  id : Nat
  seq : Nat
  deriving DecidableEq

def RowKey.toLexPair (k : RowKey) : Nat ×ₗ Nat := toLex (k.id, k.seq)

theorem RowKey.toLexPair_injective : Function.Injective RowKey.toLexPair := by
  rintro ⟨a, b⟩ ⟨c, d⟩ h
  have h' := toLex_inj.mp h
  simp only [Prod.mk.injEq] at h'
  rw [h'.1, h'.2]

instance : LinearOrder RowKey := LinearOrder.lift' RowKey.toLexPair RowKey.toLexPair_injective

theorem RowKey.lt_iff {a b : RowKey} : a < b ↔ a.id < b.id ∨ a.id = b.id ∧ a.seq < b.seq := by
  change toLex (a.id, a.seq) < toLex (b.id, b.seq) ↔ _
  rw [Prod.Lex.toLex_lt_toLex]

structure Kv where
  topics : SortedMap Nat TopicRecord
  topicNames : SortedMap String Nat
  subs : SortedMap Nat SubscriptionRecord
  subNames : SortedMap String Nat
  snaps : SortedMap Nat SnapshotRecord
  snapNames : SortedMap String Nat
  idSeq : Option Nat
  topicSeq : SortedMap Nat Nat
  msg : SortedMap RowKey MessageRecord
  cursors : SortedMap Nat CursorRecord
  dlv : SortedMap RowKey DeliveryRecord
  idx : SortedMap RowKey Unit
  writes : Nat
  ok : Nat → Bool

def Kv.empty : Kv :=
  ⟨∅, ∅, ∅, ∅, ∅, ∅, none, ∅, ∅, ∅, ∅, ∅, 0, fun _ => true⟩

abbrev KvM := EStateM Error Kv

/-- One `put` or `delete`, the unit of atomicity of the store. -/
def kvWrite (f : Kv → Kv) : KvM Unit := fun kv =>
  let kv' := { kv with writes := kv.writes + 1 }
  if kv.ok kv.writes then .ok () (f kv') else .error (.internal "write failed") kv'

theorem ensures_kvWrite {f : Kv → Kv} {kv : Kv} {Q : Unit → Kv → Prop} {E : Error → Kv → Prop} :
    Hoare.Ensures (kvWrite f) kv Q E ↔
      (kv.ok kv.writes = true → Q () (f { kv with writes := kv.writes + 1 })) ∧
      (kv.ok kv.writes = false →
        E (.internal "write failed") { kv with writes := kv.writes + 1 }) := by
  unfold Hoare.Ensures kvWrite
  cases kv.ok kv.writes <;> simp

def putTopic (id : Nat) (r : TopicRecord) : KvM Unit :=
  kvWrite fun kv => { kv with topics := kv.topics.insert id r }

def deleteTopicRow (id : Nat) : KvM Unit :=
  kvWrite fun kv => { kv with topics := kv.topics.erase id }

def putTopicName (name : String) (id : Nat) : KvM Unit :=
  kvWrite fun kv => { kv with topicNames := kv.topicNames.insert name id }

def deleteTopicName (name : String) : KvM Unit :=
  kvWrite fun kv => { kv with topicNames := kv.topicNames.erase name }

def putSub (id : Nat) (r : SubscriptionRecord) : KvM Unit :=
  kvWrite fun kv => { kv with subs := kv.subs.insert id r }

def deleteSubRow (id : Nat) : KvM Unit :=
  kvWrite fun kv => { kv with subs := kv.subs.erase id }

def putSubName (name : String) (id : Nat) : KvM Unit :=
  kvWrite fun kv => { kv with subNames := kv.subNames.insert name id }

def deleteSubName (name : String) : KvM Unit :=
  kvWrite fun kv => { kv with subNames := kv.subNames.erase name }

def putSnap (id : Nat) (r : SnapshotRecord) : KvM Unit :=
  kvWrite fun kv => { kv with snaps := kv.snaps.insert id r }

def deleteSnapRow (id : Nat) : KvM Unit :=
  kvWrite fun kv => { kv with snaps := kv.snaps.erase id }

def putSnapName (name : String) (id : Nat) : KvM Unit :=
  kvWrite fun kv => { kv with snapNames := kv.snapNames.insert name id }

def deleteSnapName (name : String) : KvM Unit :=
  kvWrite fun kv => { kv with snapNames := kv.snapNames.erase name }

def putIdSeq (n : Nat) : KvM Unit := kvWrite fun kv => { kv with idSeq := some n }

def putTopicSeq (topicId n : Nat) : KvM Unit :=
  kvWrite fun kv => { kv with topicSeq := kv.topicSeq.insert topicId n }

def putMsg (topicId seq : Nat) (r : MessageRecord) : KvM Unit :=
  kvWrite fun kv => { kv with msg := kv.msg.insert ⟨topicId, seq⟩ r }

def deleteMsg (topicId seq : Nat) : KvM Unit :=
  kvWrite fun kv => { kv with msg := kv.msg.erase ⟨topicId, seq⟩ }

def putCursor (subId : Nat) (c : CursorRecord) : KvM Unit :=
  kvWrite fun kv => { kv with cursors := kv.cursors.insert subId c }

def deleteCursor (subId : Nat) : KvM Unit :=
  kvWrite fun kv => { kv with cursors := kv.cursors.erase subId }

def putDlv (subId seq : Nat) (r : DeliveryRecord) : KvM Unit :=
  kvWrite fun kv => { kv with dlv := kv.dlv.insert ⟨subId, seq⟩ r }

def deleteDlv (subId seq : Nat) : KvM Unit :=
  kvWrite fun kv => { kv with dlv := kv.dlv.erase ⟨subId, seq⟩ }

def putIdx (topicId subId : Nat) : KvM Unit :=
  kvWrite fun kv => { kv with idx := kv.idx.insert ⟨topicId, subId⟩ () }

def deleteIdx (topicId subId : Nat) : KvM Unit :=
  kvWrite fun kv => { kv with idx := kv.idx.erase ⟨topicId, subId⟩ }

/-- The rows under the prefix `id`, by their second key component. -/
def scanPrefix {ν : Type} (m : SortedMap RowKey ν) (id : Nat) : List (Nat × ν) :=
  (m.entries.filter (fun e => e.1.id = id)).map (fun e => (e.1.seq, e.2))

theorem mem_scanPrefix {ν : Type} {m : SortedMap RowKey ν} {id seq : Nat} {v : ν} :
    (seq, v) ∈ scanPrefix m id ↔ m.get ⟨id, seq⟩ = some v := by
  simp only [scanPrefix, List.mem_map, List.mem_filter, decide_eq_true_eq, Prod.mk.injEq]
  constructor
  · rintro ⟨⟨⟨i, s⟩, w⟩, ⟨hm, hi⟩, hs, hv⟩
    subst hi hs hv
    exact SortedMap.mem_entries.mp hm
  · intro h
    exact ⟨(⟨id, seq⟩, v), ⟨SortedMap.mem_entries.mpr h, rfl⟩, rfl, rfl⟩

theorem scanPrefix_sorted {ν : Type} (m : SortedMap RowKey ν) (id : Nat) :
    (scanPrefix m id).Pairwise (fun a b => a.1 < b.1) := by
  rw [scanPrefix, List.pairwise_map, List.pairwise_filter]
  refine m.sorted.imp fun {a b} hab ha hb => ?_
  simp only [decide_eq_true_eq] at ha hb
  rcases RowKey.lt_iff.mp hab with h | h
  · omega
  · exact h.2

end OpenPubusb
