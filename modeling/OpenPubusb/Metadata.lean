import OpenPubusb.CatalogOps

/-! Every name leads to one record, the index and the cursors follow the
subscriptions, and an id stays with the resource it was given to. -/

namespace OpenPubusb

/-- The resource of that kind and name has the id. -/
def Kv.Holds (kv : Kv) (id : Nat) : Kind → String → Prop
  | .topic, name => (kv.topics.get id).map TopicRecord.name = some name
  | .subscription, name => (kv.subs.get id).map SubscriptionRecord.name = some name
  | .snapshot, name => (kv.snaps.get id).map SnapshotRecord.name = some name

theorem Kv.Holds.allocated {kv : Kv} {id : Nat} {kind : Kind} {name : String}
    (h : kv.Holds id kind name) : kv.Allocated id kind := by
  cases kind <;>
  · obtain ⟨r, hr, _⟩ := Option.map_eq_some_iff.mp h
    simp only [Kv.Allocated, hr, Option.isSome_some]

theorem Kv.Holds.unique {kv : Kv} {id : Nat} {kind : Kind} {name name' : String}
    (h : kv.Holds id kind name) (h' : kv.Holds id kind name') : name = name' := by
  cases kind <;>
  · simp only [Kv.Holds] at h h'
    rw [h] at h'
    exact Option.some.inj h'

/-- A table in which one row is inserted, read through a field of its records. -/
theorem map_insert_cases {ρ : Type} {m : SortedMap Nat ρ} {k i : Nat} {v : ρ} {f : ρ → String}
    {name : String} (h : ((m.insert k v).get i).map f = some name) :
    (i = k ∧ f v = name) ∨ (m.get i).map f = some name := by
  rw [SortedMap.get_insert] at h
  split_ifs at h with hi
  · exact Or.inl ⟨hi, Option.some.inj h⟩
  · exact Or.inr h

theorem map_erase_of {ρ : Type} {m : SortedMap Nat ρ} {k i : Nat} {f : ρ → String}
    {name : String} (h : ((m.erase k).get i).map f = some name) : (m.get i).map f = some name := by
  rw [SortedMap.get_erase] at h
  split_ifs at h
  · cases h
  · exact h

/-- A resource that holds an id after a change held it before, or the id is new. -/
theorem Change.holds {op : Op} {kv kv' : Kv} (h : Change op kv kv') (hc : Consistent kv) {id : Nat}
    {kind : Kind} {name : String} (hk : kv'.Holds id kind name) :
    kv.Holds id kind name ∨ kv.counter < id := by
  cases h with
  | rows => exact Or.inl hk
  | log => exact Or.inl hk
  | advance => exact Or.inl hk
  | seek => exact Or.inl hk
  | @rewrite _ _ i r r' w hr hw =>
    cases kind with
    | subscription =>
      rcases map_insert_cases hk with ⟨hi, hn⟩ | hk
      · have hkey := hw.identity_eq
        have hid : r'.id = i := (congrArg Prod.fst hkey).trans (hc.subs.record hr).2
        have hname : r'.name = r.name := congrArg (fun k => k.2.1) hkey
        left
        rw [Kv.Holds, hi, hid, hr, Option.map_some, ← hname, hn]
      · exact Or.inl hk
    | _ => exact Or.inl hk
  | createTopic w _ _ hid =>
    cases kind with
    | topic =>
      rcases map_insert_cases hk with ⟨hi, _⟩ | hk
      · exact Or.inr (by omega)
      · exact Or.inl hk
    | _ => exact Or.inl hk
  | updateTopic w hr hname hid =>
    cases kind with
    | topic =>
      rcases map_insert_cases hk with ⟨hi, hn⟩ | hk
      · left
        rw [Kv.Holds, hi, hr, Option.map_some, ← hname, hn]
      · exact Or.inl hk
    | _ => exact Or.inl hk
  | deleteTopic w _ _ hsubs _ =>
    left
    cases kind with
    | topic => exact map_erase_of hk
    | subscription =>
      simp only [Kv.Holds, hsubs] at hk ⊢
      cases hr : kv.subs.get id with
      | none =>
        rw [hr] at hk
        cases hk
      | some x =>
        rw [hr, Option.map_some, Option.map_some] at hk
        split_ifs at hk <;> exact hk
    | snapshot => exact hk
  | createSubscription =>
    cases kind with
    | subscription =>
      rcases map_insert_cases hk with ⟨hi, _⟩ | hk
      · exact Or.inr (by omega)
      · exact Or.inl hk
    | _ => exact Or.inl hk
  | deleteSubscription =>
    left
    cases kind with
    | subscription => exact map_erase_of hk
    | _ => exact hk
  | createSnapshot w _ _ _ _ hid =>
    cases kind with
    | snapshot =>
      rcases map_insert_cases hk with ⟨hi, _⟩ | hk
      · exact Or.inr (by omega)
      · exact Or.inl hk
    | _ => exact Or.inl hk
  | updateSnapshot w hr hname hid =>
    cases kind with
    | snapshot =>
      rcases map_insert_cases hk with ⟨hi, hn⟩ | hk
      · left
        rw [Kv.Holds, hi, hr, Option.map_some, ← hname, hn]
      · exact Or.inl hk
    | _ => exact Or.inl hk
  | deleteSnapshot =>
    left
    cases kind with
    | snapshot => exact map_erase_of hk
    | _ => exact hk

theorem Path.holds {op : Op} {kv kv' : Kv} (h : Path op kv kv') (hc : Consistent kv) {id : Nat}
    {kind : Kind} {name : String} (hk : kv'.Holds id kind name) :
    kv.Holds id kind name ∨ kv.counter < id := by
  induction h with
  | refl => exact Or.inl hk
  | tail hp hch ih =>
    have hev := Path.evolves hp hc
    rcases hch.holds hev.consistent hk with hk | hid
    · exact ih hk
    · exact Or.inr (hev.counter.trans_lt hid)

theorem evolves_final {s : Engine} (hc : Consistent s.kv) (hh : s.kv.Healthy) (is : List Input) :
    Evolves s.kv (Run.final step s is).kv := by
  induction is generalizing s with
  | nil => exact .refl hc
  | cons i is ih =>
    have hev := (step_path i hc hh).evolves hc
    exact hev.trans (ih hev.consistent (hev.healthy hh))

/-- Once the counter has passed an id, only the resource that holds it can hold
it later. -/
theorem holds_of_final {s : Engine} (hc : Consistent s.kv) (hh : s.kv.Healthy) (is : List Input)
    {id : Nat} (hid : id ≤ s.kv.counter) {kind : Kind} {name : String}
    (hk : (Run.final step s is).kv.Holds id kind name) : s.kv.Holds id kind name := by
  induction is generalizing s with
  | nil => exact hk
  | cons i is ih =>
    have hpath := step_path i hc hh
    have hev := hpath.evolves hc
    have hk' := ih hev.consistent (hev.healthy hh) (hid.trans hev.counter) hk
    exact (hpath.holds hc hk').resolve_right (by omega)

/-- The name rows of one kind and its records are in bijection. -/
def NamesMatch {ρ : Type} (nameOf : ρ → String) (names : SortedMap String Nat)
    (records : SortedMap Nat ρ) : Prop :=
  (∀ name id, names.get name = some id → ∃ r, records.get id = some r ∧ nameOf r = name) ∧
    ∀ id r, records.get id = some r → ∃! name, names.get name = some id

theorem namesMatch_of_indexed {ρ : Type} {nameOf : ρ → String} {idOf : ρ → Nat}
    {names : SortedMap String Nat} {records : SortedMap Nat ρ}
    (h : Directory.Indexed nameOf idOf names records) : NamesMatch nameOf names records := by
  refine ⟨fun name id hn => h.named hn, fun id r hr => ?_⟩
  exact ⟨nameOf r, (h.record hr).1, fun name hn => (h.name_eq hn hr).symm⟩

structure Kv.TablesAgree (kv : Kv) : Prop where
  topics : NamesMatch TopicRecord.name kv.topicNames kv.topics
  subs : NamesMatch SubscriptionRecord.name kv.subNames kv.subs
  snaps : NamesMatch SnapshotRecord.name kv.snapNames kv.snaps
  idx : ∀ topicId subId, (kv.idx.get ⟨topicId, subId⟩).isSome ↔
    ∃ r, kv.subs.get subId = some r ∧ r.topicId = topicId
  cursors : ∀ subId, (kv.cursors.get subId).isSome ↔ (kv.subs.get subId).isSome

/-- An id that a resource holds after `is` and one holds after `is ++ is₁ ++ is₂`
is held by the same resource at both times and in between. -/
theorem metadata_consistent (is : List Input) :
    (Run.final step start is).kv.TablesAgree ∧
    ∀ is₁ is₂ id kind name kind' name',
      (Run.final step start is).kv.Holds id kind name →
      (Run.final step start (is ++ is₁ ++ is₂)).kv.Holds id kind' name' →
      kind' = kind ∧ name' = name ∧ (Run.final step start (is ++ is₁)).kv.Holds id kind name := by
  obtain ⟨hc, hh⟩ := consistent_final is
  refine ⟨⟨namesMatch_of_indexed hc.topics, namesMatch_of_indexed hc.subs,
    namesMatch_of_indexed hc.snaps, hc.idx, hc.cursors⟩, ?_⟩
  intro is₁ is₂ id kind name kind' name' hk hk'
  have hid : id ≤ (Run.final step start is).kv.counter := hc.known hk.allocated
  obtain ⟨hc₁, hh₁⟩ := consistent_final (is ++ is₁)
  have hid₁ : id ≤ (Run.final step start (is ++ is₁)).kv.counter := by
    have hev := evolves_final hc hh is₁
    rw [Run.final_append]
    exact hid.trans hev.counter
  rw [Run.final_append] at hk'
  have hmid := holds_of_final hc₁ hh₁ is₂ hid₁ hk'
  have hback : (Run.final step start is).kv.Holds id kind' name' := by
    rw [Run.final_append] at hmid
    exact holds_of_final hc hh is₁ hid hmid
  have hkind : kind' = kind := hc.disjoint hback.allocated hk.allocated
  subst hkind
  have hname : name' = name := hback.unique hk
  subst hname
  exact ⟨rfl, rfl, hmid⟩

end OpenPubusb
