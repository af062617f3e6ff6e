import OpenPubusb.Directory
import OpenPubusb.Frame
import OpenPubusb.SubRows

/-! The tables of topics, subscriptions and snapshots agree with each other in
every reachable state, and no id is given out twice. -/

namespace OpenPubusb

open Hoare

inductive Kind where
  | topic
  | subscription
  | snapshot
  deriving DecidableEq

def Kv.Allocated (kv : Kv) (id : Nat) : Kind → Prop
  | .topic => (kv.topics.get id).isSome
  | .subscription => (kv.subs.get id).isSome
  | .snapshot => (kv.snaps.get id).isSome

structure Consistent (kv : Kv) : Prop where
  topics : Directory.Indexed TopicRecord.name TopicRecord.id kv.topicNames kv.topics
  subs : Directory.Indexed SubscriptionRecord.name SubscriptionRecord.id kv.subNames kv.subs
  snaps : Directory.Indexed SnapshotRecord.name SnapshotRecord.id kv.snapNames kv.snaps
  idx : ∀ topicId subId, (kv.idx.get ⟨topicId, subId⟩).isSome ↔
    ∃ r, kv.subs.get subId = some r ∧ r.topicId = topicId
  cursors : ∀ subId, (kv.cursors.get subId).isSome ↔ (kv.subs.get subId).isSome
  known : ∀ {id kind}, kv.Allocated id kind → id ≤ kv.counter
  disjoint : ∀ {id kind kind'}, kv.Allocated id kind → kv.Allocated id kind' → kind = kind'

theorem Consistent.topic_known {kv : Kv} (h : Consistent kv) {id : Nat}
    (ht : (kv.topics.get id).isSome) : id ≤ kv.counter :=
  have ha : kv.Allocated id .topic := ht
  h.known ha

theorem Consistent.sub_known {kv : Kv} (h : Consistent kv) {id : Nat}
    (hs : (kv.subs.get id).isSome) : id ≤ kv.counter :=
  have ha : kv.Allocated id .subscription := hs
  h.known ha

theorem Consistent.get_name {kv : Kv} (hc : Consistent kv) {id : Nat} {r : SubscriptionRecord}
    (hr : kv.subs.get id = some r) : SubscriptionStore.get kv r.name = .ok r := by
  unfold SubscriptionStore.get SubscriptionStore.load
  rw [(hc.subs.record hr).1]
  simp only [hr]

theorem consistent_empty : Consistent .empty where
  topics := Directory.indexed_empty
  subs := Directory.indexed_empty
  snaps := Directory.indexed_empty
  idx _ _ := ⟨fun h => (by cases h), fun ⟨_, h, _⟩ => (by cases h)⟩
  cursors _ := Iff.rfl
  known {_ kind} h := by cases kind <;> cases h
  disjoint {_ kind _} h := by cases kind <;> cases h

theorem consistent_withOk {kv : Kv} (h : Consistent kv) (ok : Nat → Bool) :
    Consistent { kv with ok := ok } := by
  have hall : ∀ {id kind}, Kv.Allocated { kv with ok := ok } id kind ↔ kv.Allocated id kind := by
    intro id kind
    cases kind <;> exact Iff.rfl
  exact ⟨h.topics, h.subs, h.snaps, h.idx, h.cursors, fun ha => h.known (hall.mp ha),
    fun ha ha' => h.disjoint (hall.mp ha) (hall.mp ha')⟩

/-- What one operation does to the tables: ids it gives out are above the old
counter. -/
structure Evolves (kv kv' : Kv) : Prop where
  consistent : Consistent kv'
  ok : kv'.ok = kv.ok
  counter : kv.counter ≤ kv'.counter
  fresh : ∀ {id kind}, kv'.Allocated id kind → kv.Allocated id kind ∨ kv.counter < id

theorem Evolves.refl {kv : Kv} (h : Consistent kv) : Evolves kv kv :=
  ⟨h, rfl, le_rfl, fun h => Or.inl h⟩

theorem Evolves.trans {kv kv' kv'' : Kv} (h : Evolves kv kv') (h' : Evolves kv' kv'') :
    Evolves kv kv'' where
  consistent := h'.consistent
  ok := h'.ok.trans h.ok
  counter := h.counter.trans h'.counter
  fresh hi := by
    rcases h'.fresh hi with hi | hi
    · exact h.fresh hi
    · exact Or.inr (h.counter.trans_lt hi)

theorem Evolves.healthy {kv kv' : Kv} (h : Evolves kv kv') (hh : kv.Healthy) : kv'.Healthy :=
  fun n => by
    rw [h.ok]
    exact hh n

/-- The tables of `kv'` are those of `kv`, the cursors apart. -/
structure SameTables (kv kv' : Kv) : Prop where
  ok : kv'.ok = kv.ok
  idSeq : kv'.idSeq = kv.idSeq
  topics : kv'.topics = kv.topics
  topicNames : kv'.topicNames = kv.topicNames
  subs : kv'.subs = kv.subs
  subNames : kv'.subNames = kv.subNames
  snaps : kv'.snaps = kv.snaps
  snapNames : kv'.snapNames = kv.snapNames
  idx : kv'.idx = kv.idx
  cursors : ∀ id, (kv'.cursors.get id).isSome = (kv.cursors.get id).isSome

theorem SameTables.evolves {kv kv' : Kv} (h : SameTables kv kv') (hc : Consistent kv) :
    Evolves kv kv' := by
  have hall : ∀ {id kind}, kv'.Allocated id kind ↔ kv.Allocated id kind := by
    intro id kind
    cases kind <;> simp only [Kv.Allocated, h.topics, h.subs, h.snaps]
  have hcount : kv'.counter = kv.counter := by rw [Kv.counter, Kv.counter, h.idSeq]
  refine ⟨⟨?_, ?_, ?_, fun t i => ?_, fun i => ?_, fun ha => ?_, fun ha ha' => ?_⟩, h.ok, hcount.ge,
    fun ha => Or.inl (hall.mp ha)⟩
  · rw [h.topics, h.topicNames]
    exact hc.topics
  · rw [h.subs, h.subNames]
    exact hc.subs
  · rw [h.snaps, h.snapNames]
    exact hc.snaps
  · rw [h.idx, h.subs]
    exact hc.idx t i
  · rw [h.cursors, h.subs]
    exact hc.cursors i
  · rw [hcount]
    exact hc.known (hall.mp ha)
  · exact hc.disjoint (hall.mp ha) (hall.mp ha')

theorem sameTables_cursor {kv : Kv} {id : Nat} (h : (kv.cursors.get id).isSome = true)
    (c : CursorRecord) (w : Nat) :
    SameTables kv { kv with cursors := kv.cursors.insert id c, writes := w } := by
  refine ⟨rfl, rfl, rfl, rfl, rfl, rfl, rfl, rfl, rfl, fun i => ?_⟩
  simp only [SortedMap.get_insert]
  split_ifs with hi
  · rw [hi, h]
    rfl
  · rfl

/-- Subscription records are written again, with their names and their topics. -/
theorem evolves_subs {kv : Kv} (hc : Consistent kv) {subs : SortedMap Nat SubscriptionRecord}
    {subNames : SortedMap String Nat}
    (hsubs : ∀ i, (subs.get i).map identity = (kv.subs.get i).map identity)
    (hnames : ∀ n, subNames.get n = kv.subNames.get n) (w : Nat) :
    Evolves kv { kv with subs := subs, subNames := subNames, writes := w } := by
  have hsome : ∀ i, (subs.get i).isSome = (kv.subs.get i).isSome := by
    intro i
    rw [← Option.isSome_map (f := identity), hsubs, Option.isSome_map]
  have hback : ∀ {i r}, subs.get i = some r →
      ∃ r₀, kv.subs.get i = some r₀ ∧ identity r = identity r₀ := by
    intro i r hr
    have hi := hsubs i
    rw [hr, Option.map_some] at hi
    obtain ⟨r₀, hr₀, heq⟩ := Option.map_eq_some_iff.mp hi.symm
    exact ⟨r₀, hr₀, heq.symm⟩
  have hforth : ∀ {i r}, kv.subs.get i = some r →
      ∃ r', subs.get i = some r' ∧ identity r' = identity r := by
    intro i r hr
    have hi := hsubs i
    rw [hr, Option.map_some] at hi
    obtain ⟨r', hr', heq⟩ := Option.map_eq_some_iff.mp hi
    exact ⟨r', hr', heq⟩
  have hall : ∀ {i kind}, Kv.Allocated { kv with subs := subs, subNames := subNames, writes := w }
      i kind ↔ kv.Allocated i kind := by
    intro i kind
    cases kind with
    | subscription => simp only [Kv.Allocated, hsome]
    | _ => exact Iff.rfl
  refine ⟨⟨hc.topics, ⟨fun {n i} hn => ?_, fun {i r} hr => ?_⟩, hc.snaps, fun t i => ?_,
    fun i => ?_, fun ha => hc.known (hall.mp ha),
    fun ha ha' => hc.disjoint (hall.mp ha) (hall.mp ha')⟩, rfl, le_rfl, fun ha => Or.inl (hall.mp ha)⟩
  · rw [hnames] at hn
    obtain ⟨r, hr, hrn⟩ := hc.subs.named hn
    obtain ⟨r', hr', heq⟩ := hforth hr
    exact ⟨r', hr', (congrArg (fun k => k.2.1) heq).trans hrn⟩
  · obtain ⟨r₀, hr₀, heq⟩ := hback hr
    obtain ⟨hn, hi⟩ := hc.subs.record hr₀
    have hname : r.name = r₀.name := congrArg (fun k => k.2.1) heq
    rw [hnames, hname]
    exact ⟨hn, (congrArg Prod.fst heq).trans hi⟩
  · refine (hc.idx t i).trans ⟨fun ⟨r, hr, ht⟩ => ?_, fun ⟨r, hr, ht⟩ => ?_⟩
    · obtain ⟨r', hr', heq⟩ := hforth hr
      exact ⟨r', hr', (congrArg (fun k => k.2.2.1) heq).trans ht⟩
    · obtain ⟨r₀, hr₀, heq⟩ := hback hr
      exact ⟨r₀, hr₀, (congrArg (fun k => k.2.2.1) heq).symm.trans ht⟩
  · rw [hsome]
    exact hc.cursors i

/-- The rows after a record that exists is written again with its name row. -/
theorem persist_rows {kv : Kv} (hc : Consistent kv) {id : Nat} {r r' : SubscriptionRecord}
    (hr : kv.subs.get id = some r) (hkey : identity r' = identity r) :
    (∀ i, (kv.subs.insert r'.id r').get i = if i = id then some r' else kv.subs.get i) ∧
      ∀ n, (kv.subNames.insert r'.name r'.id).get n = kv.subNames.get n := by
  obtain ⟨hn, hi⟩ := hc.subs.record hr
  have hid : r'.id = id := (congrArg Prod.fst hkey).trans hi
  have hname : r'.name = r.name := congrArg (fun k => k.2.1) hkey
  refine ⟨fun i => ?_, fun n => ?_⟩
  · rw [SortedMap.get_insert, hid]
  · rw [SortedMap.get_insert, hname, hid]
    split_ifs with h
    · rw [h, hn]
    · rfl

theorem evolves_persist {kv : Kv} (hc : Consistent kv) {id : Nat} {r r' : SubscriptionRecord}
    (hr : kv.subs.get id = some r) (hkey : identity r' = identity r) (w : Nat) :
    Evolves kv { kv with
      subs := kv.subs.insert r'.id r'
      subNames := kv.subNames.insert r'.name r'.id
      writes := w } := by
  obtain ⟨hsubs, hnames⟩ := persist_rows hc hr hkey
  refine evolves_subs hc (fun i => ?_) hnames w
  rw [hsubs]
  split_ifs with hi
  · rw [hi, hr, Option.map_some, Option.map_some, hkey]
  · rfl

section Creation

variable {kv kv' : Kv}

theorem Consistent.not_allocated (h : Consistent kv) (kind : Kind) :
    ¬ kv.Allocated (kv.counter + 1) kind := fun ha => by
  have hle := h.known ha
  omega

/-- The allocations after a resource of the kind got the next id. -/
structure Allocates (kv kv' : Kv) (kind : Kind) : Prop where
  idSeq : kv'.idSeq = some (kv.counter + 1)
  allocated : ∀ {id k}, kv'.Allocated id k ↔ kv.Allocated id k ∨ id = kv.counter + 1 ∧ k = kind

theorem Allocates.counter {kind : Kind} (h : Allocates kv kv' kind) :
    kv'.counter = kv.counter + 1 := by
  rw [Kv.counter, h.idSeq]
  rfl

theorem Allocates.known {kind : Kind} (h : Allocates kv kv' kind) (hc : Consistent kv)
    {id : Nat} {k : Kind} (ha : kv'.Allocated id k) : id ≤ kv'.counter := by
  rw [h.counter]
  rcases h.allocated.mp ha with ha | ⟨hid, _⟩
  · exact (hc.known ha).trans (Nat.le_succ _)
  · exact hid.le

theorem Allocates.disjoint {kind : Kind} (h : Allocates kv kv' kind) (hc : Consistent kv)
    {id : Nat} {k k' : Kind} (ha : kv'.Allocated id k) (ha' : kv'.Allocated id k') : k = k' := by
  rcases h.allocated.mp ha with ha | ⟨hid, hk⟩ <;> rcases h.allocated.mp ha' with ha' | ⟨hid', hk'⟩
  · exact hc.disjoint ha ha'
  · exact absurd (hid' ▸ ha) (hc.not_allocated _)
  · exact absurd (hid ▸ ha') (hc.not_allocated _)
  · exact hk.trans hk'.symm

theorem Allocates.evolves {kind : Kind} (h : Allocates kv kv' kind) (hc' : Consistent kv')
    (hok : kv'.ok = kv.ok) : Evolves kv kv' := by
  refine ⟨hc', hok, h.counter ▸ Nat.le_succ _, fun ha => ?_⟩
  rcases h.allocated.mp ha with ha | ⟨hid, _⟩
  · exact Or.inl ha
  · exact Or.inr (by omega)

theorem isSome_insert_iff {ν : Type} {m : SortedMap Nat ν} {k i : Nat} {v : ν} :
    ((m.insert k v).get i).isSome ↔ (m.get i).isSome ∨ i = k := by
  rw [SortedMap.get_insert]
  split_ifs with h
  · simp [h]
  · simp [h]

theorem evolves_createTopic (hc : Consistent kv) {r : TopicRecord}
    (hname : kv.topicNames.get r.name = none) (hid : r.id = kv.counter + 1) (w : Nat) :
    Evolves kv { kv with
      idSeq := some (kv.counter + 1)
      topics := kv.topics.insert r.id r
      topicNames := kv.topicNames.insert r.name r.id
      writes := w } := by
  have hnone : kv.topics.get r.id = none := by
    rw [hid]
    exact Option.not_isSome_iff_eq_none.mp (hc.not_allocated .topic)
  have ha : Allocates kv { kv with
      idSeq := some (kv.counter + 1)
      topics := kv.topics.insert r.id r
      topicNames := kv.topicNames.insert r.name r.id
      writes := w } .topic := by
    refine ⟨rfl, fun {id k} => ?_⟩
    cases k with
    | topic => simp only [Kv.Allocated, isSome_insert_iff, hid, and_true]
    | _ => simp only [Kv.Allocated, reduceCtorEq, and_false, or_false]
  exact ha.evolves ⟨hc.topics.insert hname hnone, hc.subs, hc.snaps, hc.idx, hc.cursors,
    fun h => ha.known hc h, fun h h' => ha.disjoint hc h h'⟩ rfl

theorem evolves_createSnapshot (hc : Consistent kv) {r : SnapshotRecord}
    (hname : kv.snapNames.get r.name = none) (hid : r.id = kv.counter + 1) (w : Nat) :
    Evolves kv { kv with
      idSeq := some (kv.counter + 1)
      snaps := kv.snaps.insert r.id r
      snapNames := kv.snapNames.insert r.name r.id
      writes := w } := by
  have hnone : kv.snaps.get r.id = none := by
    rw [hid]
    exact Option.not_isSome_iff_eq_none.mp (hc.not_allocated .snapshot)
  have ha : Allocates kv { kv with
      idSeq := some (kv.counter + 1)
      snaps := kv.snaps.insert r.id r
      snapNames := kv.snapNames.insert r.name r.id
      writes := w } .snapshot := by
    refine ⟨rfl, fun {id k} => ?_⟩
    cases k with
    | snapshot => simp only [Kv.Allocated, isSome_insert_iff, hid, and_true]
    | _ => simp only [Kv.Allocated, reduceCtorEq, and_false, or_false]
  exact ha.evolves ⟨hc.topics, hc.subs, hc.snaps.insert hname hnone, hc.idx, hc.cursors,
    fun h => ha.known hc h, fun h h' => ha.disjoint hc h h'⟩ rfl

theorem evolves_createSubscription (hc : Consistent kv) {r : SubscriptionRecord}
    (hname : kv.subNames.get r.name = none) (hid : r.id = kv.counter + 1) (c : CursorRecord)
    (w : Nat) :
    Evolves kv { kv with
      idSeq := some (kv.counter + 1)
      subs := kv.subs.insert r.id r
      subNames := kv.subNames.insert r.name r.id
      cursors := kv.cursors.insert r.id c
      idx := kv.idx.insert ⟨r.topicId, r.id⟩ ()
      writes := w } := by
  have hnone : kv.subs.get r.id = none := by
    rw [hid]
    exact Option.not_isSome_iff_eq_none.mp (hc.not_allocated .subscription)
  have ha : Allocates kv { kv with
      idSeq := some (kv.counter + 1)
      subs := kv.subs.insert r.id r
      subNames := kv.subNames.insert r.name r.id
      cursors := kv.cursors.insert r.id c
      idx := kv.idx.insert ⟨r.topicId, r.id⟩ ()
      writes := w } .subscription := by
    refine ⟨rfl, fun {id k} => ?_⟩
    cases k with
    | subscription => simp only [Kv.Allocated, isSome_insert_iff, hid, and_true]
    | _ => simp only [Kv.Allocated, reduceCtorEq, and_false, or_false]
  refine ha.evolves ⟨hc.topics, hc.subs.insert hname hnone, hc.snaps, fun t i => ?_, fun i => ?_,
    fun h => ha.known hc h, fun h h' => ha.disjoint hc h h'⟩ rfl
  · simp only [SortedMap.get_insert, RowKey.mk.injEq]
    by_cases hi : i = r.id
    · have hno : ¬ (kv.idx.get ⟨t, i⟩).isSome := fun h => by
        obtain ⟨x, hx, _⟩ := (hc.idx t i).mp h
        rw [hi, hnone] at hx
        cases hx
      by_cases ht : t = r.topicId
      · simp [hi, ht]
      · simp only [hi, if_true, Option.some.injEq, and_true, ht, if_false]
        rw [← hi]
        exact ⟨fun h => absurd h hno, fun ⟨_, hx, hxt⟩ => absurd (by rw [← hxt, ← hx]) ht⟩
    · simp only [hi, and_false, if_false]
      exact hc.idx t i
  · simp only [isSome_insert_iff]
    exact or_congr (hc.cursors i) Iff.rfl

end Creation

section Deletion

variable {kv : Kv}

theorem isSome_erase_of {ν : Type} {m : SortedMap Nat ν} {k i : Nat}
    (h : ((m.erase k).get i).isSome) : (m.get i).isSome := by
  rw [SortedMap.get_erase] at h
  split_ifs at h
  · cases h
  · exact h

theorem evolves_deleteTopic (hc : Consistent kv) {id : Nat} {r : TopicRecord}
    (hr : kv.topics.get id = some r) (w : Nat) :
    Evolves kv { kv with
      topics := kv.topics.erase id
      topicNames := kv.topicNames.erase r.name
      writes := w } := by
  have hall : ∀ {i kind}, Kv.Allocated { kv with
        topics := kv.topics.erase id
        topicNames := kv.topicNames.erase r.name
        writes := w } i kind → kv.Allocated i kind := by
    intro i kind h
    cases kind with
    | topic => exact isSome_erase_of h
    | _ => exact h
  exact ⟨⟨hc.topics.erase hr, hc.subs, hc.snaps, hc.idx, hc.cursors, fun h => hc.known (hall h),
    fun h h' => hc.disjoint (hall h) (hall h')⟩, rfl, le_rfl, fun h => Or.inl (hall h)⟩

theorem evolves_deleteSnapshot (hc : Consistent kv) {id : Nat} {r : SnapshotRecord}
    (hr : kv.snaps.get id = some r) (w : Nat) :
    Evolves kv { kv with
      snaps := kv.snaps.erase id
      snapNames := kv.snapNames.erase r.name
      writes := w } := by
  have hall : ∀ {i kind}, Kv.Allocated { kv with
        snaps := kv.snaps.erase id
        snapNames := kv.snapNames.erase r.name
        writes := w } i kind → kv.Allocated i kind := by
    intro i kind h
    cases kind with
    | snapshot => exact isSome_erase_of h
    | _ => exact h
  exact ⟨⟨hc.topics, hc.subs, hc.snaps.erase hr, hc.idx, hc.cursors, fun h => hc.known (hall h),
    fun h h' => hc.disjoint (hall h) (hall h')⟩, rfl, le_rfl, fun h => Or.inl (hall h)⟩

theorem evolves_deleteSubscription (hc : Consistent kv) {id : Nat} {r : SubscriptionRecord}
    (hr : kv.subs.get id = some r) (w : Nat) :
    Evolves kv { kv with
      subs := kv.subs.erase r.id
      subNames := kv.subNames.erase r.name
      cursors := kv.cursors.erase r.id
      idx := kv.idx.erase ⟨r.topicId, r.id⟩
      writes := w } := by
  have hid : r.id = id := (hc.subs.record hr).2
  have hall : ∀ {i kind}, Kv.Allocated { kv with
        subs := kv.subs.erase r.id
        subNames := kv.subNames.erase r.name
        cursors := kv.cursors.erase r.id
        idx := kv.idx.erase ⟨r.topicId, r.id⟩
        writes := w } i kind → kv.Allocated i kind := by
    intro i kind h
    cases kind with
    | subscription => exact isSome_erase_of h
    | _ => exact h
  refine ⟨⟨hc.topics, ?_, hc.snaps, fun t i => ?_, fun i => ?_, fun h => hc.known (hall h),
    fun h h' => hc.disjoint (hall h) (hall h')⟩, rfl, le_rfl, fun h => Or.inl (hall h)⟩
  · rw [hid]
    exact hc.subs.erase hr
  · simp only [SortedMap.get_erase, RowKey.mk.injEq]
    by_cases hi : i = r.id
    · by_cases ht : t = r.topicId
      · simp [hi, ht]
      · simp only [hi, ht, false_and, if_false, if_true]
        refine ⟨fun h => ?_, fun ⟨_, h, _⟩ => (by cases h)⟩
        obtain ⟨x, hx, hxt⟩ := (hc.idx t r.id).mp h
        rw [hid, hr] at hx
        cases hx
        exact absurd hxt.symm ht
    · simp only [hi, and_false, if_false]
      exact hc.idx t i
  · simp only [SortedMap.get_erase]
    split_ifs with hi
    · exact Iff.rfl
    · exact hc.cursors i

end Deletion

section Changes

theorem evolves_topic {kv : Kv} (hc : Consistent kv) {r r' : TopicRecord}
    (hr : kv.topics.get r.id = some r) (hname : r'.name = r.name) (hid : r'.id = r.id) (w : Nat) :
    Evolves kv { kv with topics := kv.topics.insert r.id r', writes := w } := by
  have hsome : ∀ i, ((kv.topics.insert r.id r').get i).isSome ↔ (kv.topics.get i).isSome := by
    intro i
    rw [isSome_insert_iff]
    refine ⟨fun h => h.elim (fun h => h) fun h => ?_, Or.inl⟩
    rw [h, hr]
    rfl
  have hall : ∀ {i kind}, Kv.Allocated { kv with topics := kv.topics.insert r.id r', writes := w }
      i kind ↔ kv.Allocated i kind := by
    intro i kind
    cases kind with
    | topic => exact hsome i
    | _ => exact Iff.rfl
  exact ⟨⟨hid ▸ hc.topics.rewrite hr hname hid, hc.subs, hc.snaps, hc.idx, hc.cursors,
    fun ha => hc.known (hall.mp ha), fun ha ha' => hc.disjoint (hall.mp ha) (hall.mp ha')⟩, rfl,
    le_rfl, fun ha => Or.inl (hall.mp ha)⟩

theorem evolves_snapshot {kv : Kv} (hc : Consistent kv) {r r' : SnapshotRecord}
    (hr : kv.snaps.get r.id = some r) (hname : r'.name = r.name) (hid : r'.id = r.id) (w : Nat) :
    Evolves kv { kv with snaps := kv.snaps.insert r.id r', writes := w } := by
  have hsome : ∀ i, ((kv.snaps.insert r.id r').get i).isSome ↔ (kv.snaps.get i).isSome := by
    intro i
    rw [isSome_insert_iff]
    refine ⟨fun h => h.elim (fun h => h) fun h => ?_, Or.inl⟩
    rw [h, hr]
    rfl
  have hall : ∀ {i kind}, Kv.Allocated { kv with snaps := kv.snaps.insert r.id r', writes := w }
      i kind ↔ kv.Allocated i kind := by
    intro i kind
    cases kind with
    | snapshot => exact hsome i
    | _ => exact Iff.rfl
  exact ⟨⟨hc.topics, hc.subs, hid ▸ hc.snaps.rewrite hr hname hid, hc.idx, hc.cursors,
    fun ha => hc.known (hall.mp ha), fun ha ha' => hc.disjoint (hall.mp ha) (hall.mp ha')⟩, rfl,
    le_rfl, fun ha => Or.inl (hall.mp ha)⟩

/-- What an operation may do to a subscription record that stays. -/
inductive Rewrites : Op → SubscriptionRecord → SubscriptionRecord → Prop
  | touch (op : Op) (r : SubscriptionRecord) (nowMs : Int) :
      Rewrites op r { r with lastActivityTsMs := nowMs }
  | update (r : SubscriptionRecord) (patch : SubscriptionUpdatePatch)
      (h : SubscriptionStore.checkPatch patch = .ok ()) :
      Rewrites (.updateSubscription r.name patch) r (SubscriptionStore.patched r patch)
  | detach (r : SubscriptionRecord) :
      Rewrites (.detachSubscription r.name) r { r with detached := true }
  | pushConfig (r : SubscriptionRecord) (pushConfig : Option PushConfig) :
      Rewrites (.modifyPushConfig r.name pushConfig) r { r with pushConfig := pushConfig }

theorem Rewrites.identity_eq {op : Op} {r r' : SubscriptionRecord} (h : Rewrites op r r') :
    identity r' = identity r := by
  cases h <;> rfl

def Op.appends : Op → Bool
  | .publish .. => true
  | .pull .. => true
  | .leaseForStream .. => true
  | .sweepRetention => true
  | _ => false

/-- One change that the operation makes to a store on which every write succeeds.
Topic deletion with the marking of the subscriptions is one change. -/
inductive Change : Op → Kv → Kv → Prop
  | rows {op : Op} {kv : Kv} (dlv w) : Change op kv { kv with dlv := dlv, writes := w }
  | log {op : Op} {kv : Kv} (topicSeq msg w) (h : op.appends = true) :
      Change op kv { kv with topicSeq := topicSeq, msg := msg, writes := w }
  | advance {op : Op} {kv : Kv} {id : Nat} {c c' : CursorRecord} (w)
      (h : op.isLease = true ∨ op.isAck = true) (hc : kv.cursors.get id = some c)
      (ha : c.Advanced c') :
      Change op kv { kv with cursors := kv.cursors.insert id c', writes := w }
  | seek {op : Op} {kv : Kv} {id : Nat} {c : CursorRecord} (dlv w)
      (h : seekTarget kv op = some (id, c)) :
      Change op kv { kv with dlv := dlv, cursors := kv.cursors.insert id c, writes := w }
  | rewrite {op : Op} {kv : Kv} {id : Nat} {r r' : SubscriptionRecord} (w)
      (hr : kv.subs.get id = some r) (h : Rewrites op r r') :
      Change op kv { kv with
        subs := kv.subs.insert r'.id r'
        subNames := kv.subNames.insert r'.name r'.id
        writes := w }
  | createTopic {kv : Kv} {name : String} {labels retention kms schema ingestion}
      {r : TopicRecord} (w) (hname : kv.topicNames.get r.name = none)
      (hr : r.name = name) (hid : r.id = kv.counter + 1) :
      Change (.createTopic name labels retention kms schema ingestion) kv { kv with
        idSeq := some (kv.counter + 1)
        topics := kv.topics.insert r.id r
        topicNames := kv.topicNames.insert r.name r.id
        writes := w }
  | updateTopic {kv : Kv} {name : String} {labels retention kms} {r r' : TopicRecord} (w)
      (hr : kv.topics.get r.id = some r) (hname : r'.name = r.name) (hid : r'.id = r.id) :
      Change (.updateTopic name labels retention kms) kv
        { kv with topics := kv.topics.insert r.id r', writes := w }
  | deleteTopic {kv : Kv} {name : String} {id : Nat} {r : TopicRecord}
      {subs : SortedMap Nat SubscriptionRecord} {subNames : SortedMap String Nat} (w)
      (hr : kv.topics.get id = some r) (hname : r.name = name)
      (hsubs : ∀ i, subs.get i = (kv.subs.get i).map
        (fun x => if x.topicId = id then { x with topic := deletedTopic } else x))
      (hnames : ∀ n, subNames.get n = kv.subNames.get n) :
      Change (.deleteTopic name) kv { kv with
        subs := subs
        subNames := subNames
        topics := kv.topics.erase id
        topicNames := kv.topicNames.erase r.name
        writes := w }
  | createSubscription {kv : Kv} {name topic : String} {opts : CreateSubscriptionOptions}
      {t : TopicRecord} {nowMs n : Int} (w) (hname : kv.subNames.get name = none)
      (ht : TopicStore.get kv topic = .ok t)
      (hopts : SubscriptionStore.checkOptions name topic opts = .ok n) :
      Change (.createSubscription name topic opts) kv { kv with
        idSeq := some (kv.counter + 1)
        subs := kv.subs.insert (kv.counter + 1)
          (SubscriptionStore.newRecord name topic t.id nowMs opts n (kv.counter + 1))
        subNames := kv.subNames.insert name (kv.counter + 1)
        cursors := kv.cursors.insert (kv.counter + 1)
          (.fresh (TopicStore.currentTail kv t.id) (TopicStore.currentTail kv t.id))
        idx := kv.idx.insert ⟨t.id, kv.counter + 1⟩ ()
        writes := w }
  | deleteSubscription {op : Op} {kv : Kv} {id : Nat} {r : SubscriptionRecord} (w)
      (hr : kv.subs.get id = some r)
      (hop : op = .deleteSubscription r.name ∨ op = .sweepRetention) :
      Change op kv { kv with
        subs := kv.subs.erase r.id
        subNames := kv.subNames.erase r.name
        cursors := kv.cursors.erase r.id
        idx := kv.idx.erase ⟨r.topicId, r.id⟩
        writes := w }
  | createSnapshot {kv : Kv} {name subscription : String} {labels} {sub : SubscriptionRecord}
      {r : SnapshotRecord} (w) (hname : kv.snapNames.get r.name = none)
      (hsub : SubscriptionStore.get kv subscription = .ok sub) (ht : r.topicId = sub.topicId)
      (hcursor : kv.cursors.get sub.id = some r.cursor) (hid : r.id = kv.counter + 1) :
      Change (.createSnapshot name subscription labels) kv { kv with
        idSeq := some (kv.counter + 1)
        snaps := kv.snaps.insert r.id r
        snapNames := kv.snapNames.insert r.name r.id
        writes := w }
  | updateSnapshot {op : Op} {kv : Kv} {r r' : SnapshotRecord} (w)
      (hr : kv.snaps.get r.id = some r) (hname : r'.name = r.name) (hid : r'.id = r.id)
      (ht : r'.topicId = r.topicId) (hcursor : r'.cursor = r.cursor) :
      Change op kv { kv with snaps := kv.snaps.insert r.id r', writes := w }
  | deleteSnapshot {op : Op} {kv : Kv} {id : Nat} {r : SnapshotRecord} (w)
      (hr : kv.snaps.get id = some r) :
      Change op kv { kv with
        snaps := kv.snaps.erase id
        snapNames := kv.snapNames.erase r.name
        writes := w }

theorem seekTarget_cases {kv : Kv} {op : Op} {id : Nat} {c : CursorRecord}
    (h : seekTarget kv op = some (id, c)) :
    ∃ name sub, SubscriptionStore.get kv name = .ok sub ∧ id = sub.id ∧
      ((∃ snapshot snap, SnapshotStore.get kv snapshot = .ok snap ∧ snap.topicId = sub.topicId ∧
          c = snap.cursor) ∨
        ∃ timeMs c₀, kv.cursors.get sub.id = some c₀ ∧ c = .fresh c₀.attachSeq
          (max (TopicStore.seqBoundaryForTime kv sub.topicId timeMs - 1) c₀.attachSeq)) := by
  cases op with
  | seekToSnapshot name snapshot =>
    simp only [seekTarget] at h
    cases hsub : SubscriptionStore.get kv name with
    | error e => simp [hsub] at h
    | ok sub =>
      cases hsnap : SnapshotStore.get kv snapshot with
      | error e => simp [hsub, hsnap] at h
      | ok snap =>
        simp only [hsub, hsnap] at h
        split_ifs at h with ht
        cases h
        exact ⟨name, sub, hsub, rfl, Or.inl ⟨snapshot, snap, hsnap, ht, rfl⟩⟩
  | seekToTime name timeMs =>
    simp only [seekTarget] at h
    cases hsub : SubscriptionStore.get kv name with
    | error e => simp [hsub] at h
    | ok sub =>
      simp only [hsub, Option.map_eq_some_iff] at h
      obtain ⟨c₀, hc₀, he⟩ := h
      cases he
      exact ⟨name, sub, hsub, rfl, Or.inr ⟨timeMs, c₀, hc₀, rfl⟩⟩
  | _ => simp [seekTarget] at h

theorem seekTarget_cursor {kv : Kv} (hc : Consistent kv) {op : Op} {id : Nat} {c : CursorRecord}
    (h : seekTarget kv op = some (id, c)) : (kv.cursors.get id).isSome := by
  obtain ⟨name, sub, hsub, rfl, _⟩ := seekTarget_cases h
  obtain ⟨i, _, hs⟩ := get_eq_ok hsub
  rw [(hc.subs.record hs).2, hc.cursors, hs]
  rfl

theorem Change.evolves {op : Op} {kv kv' : Kv} (h : Change op kv kv') (hc : Consistent kv) :
    Evolves kv kv' := by
  cases h with
  | rows =>
    exact SameTables.evolves ⟨rfl, rfl, rfl, rfl, rfl, rfl, rfl, rfl, rfl, fun _ => rfl⟩ hc
  | log =>
    exact SameTables.evolves ⟨rfl, rfl, rfl, rfl, rfl, rfl, rfl, rfl, rfl, fun _ => rfl⟩ hc
  | advance w _ hcur _ => exact (sameTables_cursor (by rw [hcur]; rfl) _ w).evolves hc
  | @seek _ _ id c dlv w h =>
    refine SameTables.evolves ⟨rfl, rfl, rfl, rfl, rfl, rfl, rfl, rfl, rfl, fun i => ?_⟩ hc
    exact (sameTables_cursor (seekTarget_cursor hc h) c w).cursors i
  | rewrite w hr h => exact evolves_persist hc hr h.identity_eq w
  | createTopic w hname _ hid => exact evolves_createTopic hc hname hid w
  | updateTopic w hr hname hid => exact evolves_topic hc hr hname hid w
  | @deleteTopic _ _ _ _ subs subNames w hr _ hsubs hnames =>
    have hid : ∀ i, (subs.get i).map identity = (kv.subs.get i).map identity := by
      intro i
      rw [hsubs]
      cases kv.subs.get i with
      | none => rfl
      | some x =>
        simp only [Option.map_some]
        split_ifs <;> rfl
    have hmark := evolves_subs hc hid hnames w
    exact hmark.trans (evolves_deleteTopic hmark.consistent hr w)
  | @createSubscription _ name topic opts t nowMs n w hname _ _ =>
    exact evolves_createSubscription hc
      (r := SubscriptionStore.newRecord name topic t.id nowMs opts n (kv.counter + 1)) hname rfl _ w
  | deleteSubscription w hr _ => exact evolves_deleteSubscription hc hr w
  | createSnapshot w hname _ _ _ hid => exact evolves_createSnapshot hc hname hid w
  | updateSnapshot w hr hname hid _ _ => exact evolves_snapshot hc hr hname hid w
  | deleteSnapshot w hr => exact evolves_deleteSnapshot hc hr w

/-- The changes that one operation makes, one after another. -/
abbrev Path (op : Op) : Kv → Kv → Prop := Relation.ReflTransGen (Change op)

theorem Path.evolves {op : Op} {kv kv' : Kv} (h : Path op kv kv') (hc : Consistent kv) :
    Evolves kv kv' := by
  induction h with
  | refl => exact .refl hc
  | tail _ hch ih => exact ih.trans (hch.evolves ih.consistent)

end Changes

end OpenPubusb
