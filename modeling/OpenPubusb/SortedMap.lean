import Mathlib.Algebra.Order.Ring.Nat
import Mathlib.Order.Lattice
import Mathlib.Data.List.Basic
import Mathlib.Data.Prod.Lex

/-! Finite maps as association lists in strictly increasing key order. The
order is part of the type, so a scan of the entries is a scan in key order
and two maps with the same lookups are equal. -/

structure SortedMap (κ ν : Type*) [LinearOrder κ] where
  entries : List (κ × ν)
  sorted : entries.Pairwise (fun a b => a.1 < b.1)

namespace SortedMap

variable {κ ν : Type*} [LinearOrder κ]

def lookupEntry (k : κ) : List (κ × ν) → Option ν
  | [] => none
  | (k', v) :: rest => if k = k' then some v else lookupEntry k rest

def insertEntry (k : κ) (v : ν) : List (κ × ν) → List (κ × ν)
  | [] => [(k, v)]
  | (k', v') :: rest =>
    if k < k' then (k, v) :: (k', v') :: rest
    else if k = k' then (k, v) :: rest
    else (k', v') :: insertEntry k v rest

theorem mem_insertEntry {k : κ} {v : ν} {l : List (κ × ν)} {e : κ × ν}
    (h : e ∈ insertEntry k v l) : e = (k, v) ∨ e ∈ l := by
  induction l with
  | nil => exact Or.inl (by simpa [insertEntry] using h)
  | cons a l ih =>
    simp only [insertEntry] at h
    split_ifs at h with hlt heq
    · simpa using h
    · rcases List.mem_cons.mp h with h | h
      · exact Or.inl h
      · exact Or.inr (List.mem_cons_of_mem _ h)
    · rcases List.mem_cons.mp h with h | h
      · exact Or.inr (by simp [h])
      · exact (ih h).imp id (List.mem_cons_of_mem _)

theorem insertEntry_sorted (k : κ) (v : ν) {l : List (κ × ν)}
    (h : l.Pairwise (fun a b => a.1 < b.1)) :
    (insertEntry k v l).Pairwise (fun a b => a.1 < b.1) := by
  induction l with
  | nil => simp [insertEntry]
  | cons a l ih =>
    have hc := List.pairwise_cons.mp h
    simp only [insertEntry]
    split_ifs with hlt heq
    · refine List.pairwise_cons.mpr ⟨fun b hb => ?_, h⟩
      rcases List.mem_cons.mp hb with rfl | hb
      · exact hlt
      · exact hlt.trans (hc.1 b hb)
    · exact List.pairwise_cons.mpr ⟨fun b hb => heq ▸ hc.1 b hb, hc.2⟩
    · refine List.pairwise_cons.mpr ⟨fun b hb => ?_, ih hc.2⟩
      rcases mem_insertEntry hb with rfl | hb
      · exact lt_of_le_of_ne (not_lt.mp hlt) (fun he => heq he.symm)
      · exact hc.1 b hb

def empty : SortedMap κ ν := ⟨[], List.Pairwise.nil⟩

instance : EmptyCollection (SortedMap κ ν) := ⟨empty⟩

instance : Inhabited (SortedMap κ ν) := ⟨empty⟩

def get (m : SortedMap κ ν) (k : κ) : Option ν := lookupEntry k m.entries

def insert (m : SortedMap κ ν) (k : κ) (v : ν) : SortedMap κ ν :=
  ⟨insertEntry k v m.entries, insertEntry_sorted k v m.sorted⟩

def erase (m : SortedMap κ ν) (k : κ) : SortedMap κ ν :=
  ⟨m.entries.filter (fun e => e.1 ≠ k), m.sorted.filter _⟩

def keys (m : SortedMap κ ν) : List κ := m.entries.map Prod.fst

def size (m : SortedMap κ ν) : Nat := m.entries.length

def contains (m : SortedMap κ ν) (k : κ) : Bool := (m.get k).isSome

theorem lookupEntry_insertEntry (k k' : κ) (v : ν) (l : List (κ × ν)) :
    lookupEntry k' (insertEntry k v l) = if k' = k then some v else lookupEntry k' l := by
  induction l with
  | nil => simp [insertEntry, lookupEntry]
  | cons a l ih =>
    by_cases hlt : k < a.1
    · simp only [insertEntry, hlt, if_true, lookupEntry]
    · by_cases heq : k = a.1
      · simp only [insertEntry, heq, lt_irrefl, if_false, if_true, lookupEntry]
        split_ifs <;> rfl
      · simp only [insertEntry, hlt, heq, if_false, lookupEntry, ih]
        split_ifs with ha hk
        · exact absurd (hk.symm.trans ha) heq
        · rfl
        · rfl
        · rfl

theorem lookupEntry_filter_ne (k k' : κ) (l : List (κ × ν)) :
    lookupEntry k' (l.filter (fun e => e.1 ≠ k)) = if k' = k then none else lookupEntry k' l := by
  induction l with
  | nil => simp [lookupEntry]
  | cons a l ih =>
    by_cases ha : a.1 = k
    · rw [List.filter_cons_of_neg (by simp [ha]), ih]
      by_cases hk : k' = k
      · simp [hk]
      · simp [lookupEntry, ha, hk]
    · rw [List.filter_cons_of_pos (by simp [ha])]
      by_cases hk : k' = a.1
      · simp [lookupEntry, hk, ha]
      · simp only [lookupEntry, hk, if_false]
        exact ih

theorem lookupEntry_eq_some {l : List (κ × ν)} (h : l.Pairwise (fun a b => a.1 < b.1))
    {k : κ} {v : ν} : lookupEntry k l = some v ↔ (k, v) ∈ l := by
  induction l with
  | nil => simp [lookupEntry]
  | cons a l ih =>
    have hc := List.pairwise_cons.mp h
    by_cases hk : k = a.1
    · subst hk
      simp only [lookupEntry, if_true, Option.some.injEq, List.mem_cons]
      constructor
      · rintro rfl
        exact Or.inl rfl
      · rintro (he | he)
        · exact (congrArg Prod.snd he).symm
        · exact absurd (hc.1 _ he) (lt_irrefl _)
    · simp only [lookupEntry, hk, if_false, ih hc.2, List.mem_cons]
      constructor
      · exact Or.inr
      · rintro (he | he)
        · exact absurd (congrArg Prod.fst he) hk
        · exact he

@[simp] theorem get_empty (k : κ) : (∅ : SortedMap κ ν).get k = none := rfl

theorem get_insert (m : SortedMap κ ν) (k k' : κ) (v : ν) :
    (m.insert k v).get k' = if k' = k then some v else m.get k' :=
  lookupEntry_insertEntry k k' v m.entries

@[simp] theorem get_insert_self (m : SortedMap κ ν) (k : κ) (v : ν) :
    (m.insert k v).get k = some v := by
  simp [get_insert]

theorem get_insert_ne (m : SortedMap κ ν) {k k' : κ} (v : ν) (h : k' ≠ k) :
    (m.insert k v).get k' = m.get k' := by
  simp [get_insert, h]

theorem get_erase (m : SortedMap κ ν) (k k' : κ) :
    (m.erase k).get k' = if k' = k then none else m.get k' :=
  lookupEntry_filter_ne k k' m.entries

@[simp] theorem get_erase_self (m : SortedMap κ ν) (k : κ) : (m.erase k).get k = none := by
  simp [get_erase]

theorem get_erase_ne (m : SortedMap κ ν) {k k' : κ} (h : k' ≠ k) :
    (m.erase k).get k' = m.get k' := by
  simp [get_erase, h]

theorem mem_entries {m : SortedMap κ ν} {k : κ} {v : ν} :
    (k, v) ∈ m.entries ↔ m.get k = some v :=
  (lookupEntry_eq_some m.sorted).symm

theorem ext_get {m m' : SortedMap κ ν} (h : ∀ k, m.get k = m'.get k) : m = m' := by
  have hnodup : ∀ x : SortedMap κ ν, x.entries.Nodup := fun x => x.sorted.imp fun hlt he =>
    ne_of_lt hlt (congrArg Prod.fst he)
  have hperm : m.entries.Perm m'.entries := by
    refine (List.perm_ext_iff_of_nodup (hnodup m) (hnodup m')).mpr fun e => ?_
    rw [mem_entries, mem_entries, h]
  have heq : m.entries = m'.entries := hperm.eq_of_pairwise
    (fun _ _ _ _ hlt hlt' => absurd (hlt.trans hlt') (lt_irrefl _)) m.sorted m'.sorted
  cases m
  cases m'
  cases heq
  rfl

theorem mem_keys {m : SortedMap κ ν} {k : κ} : k ∈ m.keys ↔ ∃ v, m.get k = some v := by
  simp only [keys, List.mem_map, Prod.exists, mem_entries, exists_and_right, exists_eq_right]

theorem keys_nodup (m : SortedMap κ ν) : m.keys.Nodup := by
  rw [keys, List.Nodup, List.pairwise_map]
  exact m.sorted.imp (fun h => ne_of_lt h)

theorem lookupEntry_eq_none {k : κ} {l : List (κ × ν)} (h : ∀ e ∈ l, k < e.1) :
    lookupEntry k l = none := by
  induction l with
  | nil => rfl
  | cons a l ih =>
    have ha : k ≠ a.1 := ne_of_lt (h a List.mem_cons_self)
    simp only [lookupEntry, ha, if_false]
    exact ih fun e he => h e (List.mem_cons_of_mem _ he)

theorem length_insertEntry_le (k : κ) (v : ν) (l : List (κ × ν)) :
    (insertEntry k v l).length ≤ l.length + 1 := by
  induction l with
  | nil => simp [insertEntry]
  | cons a l ih =>
    simp only [insertEntry]
    split_ifs
    · simp
    · simp
    · simp only [List.length_cons]
      omega

theorem size_insert_le (m : SortedMap κ ν) (k : κ) (v : ν) : (m.insert k v).size ≤ m.size + 1 :=
  length_insertEntry_le k v m.entries

theorem size_erase_le (m : SortedMap κ ν) (k : κ) : (m.erase k).size ≤ m.size :=
  List.length_filter_le _ m.entries

/-- The sum of the values. -/
def total (m : SortedMap κ Nat) : Nat := (m.entries.map Prod.snd).sum

theorem sum_insertEntry (k : κ) (v : Nat) {l : List (κ × Nat)}
    (h : l.Pairwise (fun a b => a.1 < b.1)) :
    ((insertEntry k v l).map Prod.snd).sum + (lookupEntry k l).getD 0 =
      (l.map Prod.snd).sum + v := by
  induction l with
  | nil => simp [insertEntry, lookupEntry]
  | cons a l ih =>
    have hc := List.pairwise_cons.mp h
    simp only [insertEntry]
    split_ifs with hlt heq
    · have hn : lookupEntry k (a :: l) = none := by
        refine lookupEntry_eq_none fun e he => ?_
        rcases List.mem_cons.mp he with rfl | he
        · exact hlt
        · exact hlt.trans (hc.1 e he)
      simp only [hn, List.map_cons, List.sum_cons, Option.getD_none]
      omega
    · simp only [lookupEntry, heq, if_true, List.map_cons, List.sum_cons, Option.getD_some]
      omega
    · have hi := ih hc.2
      simp only [lookupEntry, heq, if_false, List.map_cons, List.sum_cons]
      omega

theorem sum_filter_ne (k : κ) {l : List (κ × Nat)} (h : l.Pairwise (fun a b => a.1 < b.1)) :
    ((l.filter (fun e => e.1 ≠ k)).map Prod.snd).sum + (lookupEntry k l).getD 0 =
      (l.map Prod.snd).sum := by
  induction l with
  | nil => rfl
  | cons a l ih =>
    have hc := List.pairwise_cons.mp h
    have hi := ih hc.2
    by_cases ha : a.1 = k
    · subst ha
      rw [lookupEntry_eq_none hc.1, Option.getD_none] at hi
      rw [List.filter_cons_of_neg (by simp)]
      simp only [lookupEntry, if_true, List.map_cons, List.sum_cons, Option.getD_some]
      omega
    · rw [List.filter_cons_of_pos (by simp [ha])]
      simp only [lookupEntry, Ne.symm ha, if_false, List.map_cons, List.sum_cons]
      omega

theorem total_insert (m : SortedMap κ Nat) (k : κ) (v : Nat) :
    (m.insert k v).total + (m.get k).getD 0 = m.total + v :=
  sum_insertEntry k v m.sorted

theorem total_erase (m : SortedMap κ Nat) (k : κ) :
    (m.erase k).total + (m.get k).getD 0 = m.total :=
  sum_filter_ne k m.sorted

end SortedMap
