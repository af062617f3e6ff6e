import Mathlib.Data.List.Basic

/-! Bisection of an interval `[lo, hi)` by a test that need not be monotone. What the
result says about the test is what the positions say at which it looked. -/

namespace Bisect

variable {before : Nat → Bool} {fuel lo hi : Nat}

def search (before : Nat → Bool) : Nat → Nat → Nat → Nat
  | 0, lo, _ => lo
  | fuel + 1, lo, hi =>
    if lo < hi then
      if before (lo + (hi - lo) / 2) then search before fuel (lo + (hi - lo) / 2 + 1) hi
      else search before fuel lo (lo + (hi - lo) / 2)
    else lo

def probes (before : Nat → Bool) : Nat → Nat → Nat → List Nat
  | 0, _, _ => []
  | fuel + 1, lo, hi =>
    if lo < hi then
      (lo + (hi - lo) / 2) ::
        if before (lo + (hi - lo) / 2) then probes before fuel (lo + (hi - lo) / 2 + 1) hi
        else probes before fuel lo (lo + (hi - lo) / 2)
    else []

theorem search_mem_Icc (hle : lo ≤ hi) :
    lo ≤ search before fuel lo hi ∧ search before fuel lo hi ≤ hi := by
  induction fuel generalizing lo hi with
  | zero => exact ⟨Nat.le_refl lo, hle⟩
  | succ fuel ih =>
    unfold search
    split_ifs with hlt hb
    · have h := @ih (lo + (hi - lo) / 2 + 1) hi (by omega)
      omega
    · have h := @ih lo (lo + (hi - lo) / 2) (by omega)
      omega
    · exact ⟨Nat.le_refl lo, hle⟩

theorem lt_search_iff_of_mem {m : Nat} (hle : lo ≤ hi) (hm : m ∈ probes before fuel lo hi) :
    m < search before fuel lo hi ↔ before m = true := by
  induction fuel generalizing lo hi with
  | zero => cases hm
  | succ fuel ih =>
    unfold probes at hm
    unfold search
    split_ifs at hm ⊢ with hlt hb
    · rcases List.mem_cons.mp hm with rfl | hm
      · have h := (@search_mem_Icc before fuel (lo + (hi - lo) / 2 + 1) hi (by omega)).1
        simp only [hb, iff_true]
        omega
      · exact ih (by omega) hm
    · rcases List.mem_cons.mp hm with rfl | hm
      · have h := (@search_mem_Icc before fuel lo (lo + (hi - lo) / 2) (by omega)).2
        simp only [hb, iff_false, Bool.false_eq_true]
        omega
      · exact ih (by omega) hm
    · cases hm

/-- The result is where the interval begins, or follows a position that is before. -/
theorem search_eq_left (hle : lo ≤ hi) :
    search before fuel lo hi = lo ∨
      ∃ m ∈ probes before fuel lo hi, before m = true ∧ search before fuel lo hi = m + 1 := by
  induction fuel generalizing lo hi with
  | zero => exact Or.inl rfl
  | succ fuel ih =>
    unfold search probes
    split_ifs with hlt hb
    · rcases @ih (lo + (hi - lo) / 2 + 1) hi (by omega) with h | ⟨m, hm, hbm, h⟩
      · exact Or.inr ⟨_, List.mem_cons_self, hb, h⟩
      · exact Or.inr ⟨m, List.mem_cons_of_mem _ hm, hbm, h⟩
    · rcases @ih lo (lo + (hi - lo) / 2) (by omega) with h | ⟨m, hm, hbm, h⟩
      · exact Or.inl h
      · exact Or.inr ⟨m, List.mem_cons_of_mem _ hm, hbm, h⟩
    · exact Or.inl rfl

/-- The result is where the interval ends, or a position that is not before. -/
theorem search_eq_right (hle : lo ≤ hi) (hfuel : hi - lo ≤ fuel) :
    search before fuel lo hi = hi ∨
      ∃ m ∈ probes before fuel lo hi, before m = false ∧ search before fuel lo hi = m := by
  induction fuel generalizing lo hi with
  | zero => exact Or.inl (by unfold search; omega)
  | succ fuel ih =>
    unfold search probes
    split_ifs with hlt hb
    · rcases @ih (lo + (hi - lo) / 2 + 1) hi (by omega) (by omega) with h | ⟨m, hm, hbm, h⟩
      · exact Or.inl h
      · exact Or.inr ⟨m, List.mem_cons_of_mem _ hm, hbm, h⟩
    · rcases @ih lo (lo + (hi - lo) / 2) (by omega) (by omega) with h | ⟨m, hm, hbm, h⟩
      · exact Or.inr ⟨_, List.mem_cons_self, by simpa using hb, h⟩
      · exact Or.inr ⟨m, List.mem_cons_of_mem _ hm, hbm, h⟩
    · exact Or.inl (by omega)

theorem search_mono {before' : Nat → Bool} (h : ∀ n, before n = true → before' n = true)
    (hle : lo ≤ hi) : search before fuel lo hi ≤ search before' fuel lo hi := by
  induction fuel generalizing lo hi with
  | zero => exact Nat.le_refl lo
  | succ fuel ih =>
    unfold search
    by_cases hlt : lo < hi
    · rw [if_pos hlt, if_pos hlt]
      by_cases hb : before (lo + (hi - lo) / 2) = true
      · rw [if_pos hb, if_pos (h _ hb)]
        exact ih (by omega)
      · rw [if_neg hb]
        have hleft := (@search_mem_Icc before fuel lo (lo + (hi - lo) / 2) (by omega)).2
        by_cases hb' : before' (lo + (hi - lo) / 2) = true
        · -- the first look that tells the tests apart
          have hright := (@search_mem_Icc before' fuel (lo + (hi - lo) / 2 + 1) hi (by omega)).1
          rw [if_pos hb']
          omega
        · rw [if_neg hb']
          exact ih (by omega)
    · exact Nat.le_of_eq (by rw [if_neg hlt, if_neg hlt])

end Bisect
