import OpenPubusb.SortedMap

/-! A table of records together with an index of their names. The index is right
when every name leads to the record that carries it, and every record is found
under its name. -/

namespace Directory

variable {κ ι ρ : Type*} [LinearOrder κ] [LinearOrder ι]

structure Indexed (nameOf : ρ → κ) (idOf : ρ → ι) (names : SortedMap κ ι)
    (records : SortedMap ι ρ) : Prop where
  named : ∀ {name id}, names.get name = some id →
    ∃ r, records.get id = some r ∧ nameOf r = name
  record : ∀ {id r}, records.get id = some r → names.get (nameOf r) = some id ∧ idOf r = id

variable {nameOf : ρ → κ} {idOf : ρ → ι} {names : SortedMap κ ι} {records : SortedMap ι ρ}

theorem indexed_empty : Indexed nameOf idOf (∅ : SortedMap κ ι) (∅ : SortedMap ι ρ) where
  named h := by cases h
  record h := by cases h

theorem Indexed.name_eq (h : Indexed nameOf idOf names records) {name : κ} {id : ι} {r : ρ}
    (hn : names.get name = some id) (hr : records.get id = some r) : nameOf r = name := by
  obtain ⟨r', hr', hname⟩ := h.named hn
  rw [hr] at hr'
  cases hr'
  exact hname

theorem Indexed.insert (h : Indexed nameOf idOf names records) {r : ρ}
    (hname : names.get (nameOf r) = none) (hid : records.get (idOf r) = none) :
    Indexed nameOf idOf (names.insert (nameOf r) (idOf r)) (records.insert (idOf r) r) where
  named {name id} hn := by
    rw [SortedMap.get_insert] at hn
    split_ifs at hn with he
    · cases hn
      exact ⟨r, SortedMap.get_insert_self .., he.symm⟩
    · obtain ⟨r', hr', hn'⟩ := h.named hn
      have hne : id ≠ idOf r := fun hi => by
        rw [hi, hid] at hr'
        cases hr'
      exact ⟨r', (SortedMap.get_insert_ne _ _ hne).trans hr', hn'⟩
  record {id r'} hr := by
    rw [SortedMap.get_insert] at hr
    split_ifs at hr with he
    · cases hr
      exact ⟨he ▸ SortedMap.get_insert_self .., he.symm⟩
    · obtain ⟨hn, hi⟩ := h.record hr
      refine ⟨(SortedMap.get_insert_ne _ _ fun hname' => ?_).trans hn, hi⟩
      rw [hname', hname] at hn
      cases hn

/-- A record is written again, with its name row, under its old name and id. -/
theorem Indexed.replace (h : Indexed nameOf idOf names records) {id : ι} {r r' : ρ}
    (hr : records.get id = some r) (hname : nameOf r' = nameOf r) (hid : idOf r' = idOf r) :
    Indexed nameOf idOf (names.insert (nameOf r') (idOf r')) (records.insert (idOf r') r') := by
  obtain ⟨hn, hi⟩ := h.record hr
  rw [hid, hname, hi]
  refine ⟨fun {name id'} hn' => ?_, fun {id' x} hx => ?_⟩
  · rw [SortedMap.get_insert] at hn'
    split_ifs at hn' with he
    · cases hn'
      exact ⟨r', SortedMap.get_insert_self .., hname.trans he.symm⟩
    · obtain ⟨x, hx, hxn⟩ := h.named hn'
      have hne : id' ≠ id := fun hid' => by
        rw [hid', hr] at hx
        cases hx
        exact he hxn.symm
      exact ⟨x, (SortedMap.get_insert_ne _ _ hne).trans hx, hxn⟩
  · rw [SortedMap.get_insert] at hx
    split_ifs at hx with he
    · cases hx
      rw [hname, he]
      exact ⟨SortedMap.get_insert_self .., hid.trans hi⟩
    · obtain ⟨hxn, hxi⟩ := h.record hx
      refine ⟨(SortedMap.get_insert_ne _ _ fun hname' => ?_).trans hxn, hxi⟩
      rw [hname', hn] at hxn
      cases hxn
      exact he rfl

theorem Indexed.rewrite (h : Indexed nameOf idOf names records) {id : ι} {r r' : ρ}
    (hr : records.get id = some r) (hname : nameOf r' = nameOf r) (hid : idOf r' = idOf r) :
    Indexed nameOf idOf names (records.insert (idOf r') r') := by
  have h' := h.replace hr hname hid
  obtain ⟨hn, hi⟩ := h.record hr
  have hsame : ∀ name, (names.insert (nameOf r') (idOf r')).get name = names.get name := by
    intro name
    rw [SortedMap.get_insert]
    split_ifs with he
    · rw [he, hname, hn, hid, hi]
    · rfl
  exact ⟨fun hn' => h'.named ((hsame _).trans hn'), fun hx => by
    rw [← hsame]
    exact h'.record hx⟩

theorem Indexed.erase (h : Indexed nameOf idOf names records) {id : ι} {r : ρ}
    (hr : records.get id = some r) :
    Indexed nameOf idOf (names.erase (nameOf r)) (records.erase id) where
  named {name id'} hn := by
    rw [SortedMap.get_erase] at hn
    split_ifs at hn with he
    obtain ⟨x, hx, hxn⟩ := h.named hn
    refine ⟨x, (SortedMap.get_erase_ne _ fun hid' => ?_).trans hx, hxn⟩
    rw [hid', hr] at hx
    cases hx
    exact he hxn.symm
  record {id' x} hx := by
    rw [SortedMap.get_erase] at hx
    split_ifs at hx with he
    obtain ⟨hxn, hxi⟩ := h.record hx
    refine ⟨(SortedMap.get_erase_ne _ fun hname' => ?_).trans hxn, hxi⟩
    rw [hname', (h.record hr).1] at hxn
    cases hxn
    exact he rfl

end Directory
