import Mathlib.Algebra.BigOperators.Intervals
import Mathlib.Algebra.Order.BigOperators.Group.Finset
import Mathlib.Tactic.IntervalCases

/-! The proleptic Gregorian calendar: days are numbered from 1970-01-01, and every day
number is the number of one date. -/

namespace Calendar

def IsLeap (y : Int) : Prop := y % 4 = 0 ∧ (y % 100 ≠ 0 ∨ y % 400 = 0)

instance (y : Int) : Decidable (IsLeap y) := inferInstanceAs (Decidable (_ ∧ _))

def yearLength (y : Int) : Int := if IsLeap y then 366 else 365

def monthLength (y : Int) : Nat → Nat
  | 2 => if IsLeap y then 29 else 28
  | 4 => 30
  | 6 => 30
  | 9 => 30
  | 11 => 30
  | _ => 31

theorem monthLength_le (y : Int) (m : Nat) : monthLength y m ≤ 31 := by
  unfold monthLength
  split
  · split_ifs <;> decide
  all_goals decide

structure Date where
  year : Int
  month : Nat
  day : Nat
  deriving DecidableEq

structure Date.Valid (d : Date) : Prop where
  month : 1 ≤ d.month ∧ d.month ≤ 12
  day : 1 ≤ d.day ∧ d.day ≤ monthLength d.year d.month

instance (d : Date) : Decidable d.Valid :=
  decidable_of_iff ((1 ≤ d.month ∧ d.month ≤ 12) ∧ 1 ≤ d.day ∧ d.day ≤ monthLength d.year d.month)
    ⟨fun h => ⟨h.1, h.2⟩, fun h => ⟨h.1, h.2⟩⟩

def daysBeforeYear (y : Int) : Int :=
  if 1970 ≤ y then ∑ i ∈ Finset.range (y - 1970).toNat, yearLength (1970 + i)
  else - ∑ i ∈ Finset.range (1970 - y).toNat, yearLength (y + i)

def daysBeforeMonth (y : Int) (m : Nat) : Nat :=
  ∑ i ∈ Finset.range (m - 1), monthLength y (i + 1)

def Date.dayNumber (d : Date) : Int :=
  daysBeforeYear d.year + daysBeforeMonth d.year d.month + (d.day - 1)

theorem valid_mk {y : Int} {m n : Nat} (hm : 1 ≤ m ∧ m ≤ 12) (hn : 1 ≤ n)
    (hle : n ≤ monthLength y m) : (⟨y, m, n⟩ : Date).Valid := ⟨hm, hn, hle⟩

theorem dayNumber_mk (y : Int) (m n : Nat) :
    (⟨y, m, n⟩ : Date).dayNumber = daysBeforeYear y + daysBeforeMonth y m + (n - 1) := rfl

theorem daysBeforeYear_succ (y : Int) :
    daysBeforeYear (y + 1) = daysBeforeYear y + yearLength y := by
  unfold daysBeforeYear
  by_cases hy : 1970 ≤ y
  · have hn : (y + 1 - 1970).toNat = (y - 1970).toNat + 1 := by omega
    have hlast : (1970 : Int) + ((y - 1970).toNat : Int) = y := by omega
    rw [if_pos hy, if_pos (by omega), hn, Finset.sum_range_succ, hlast]
  · have hn : (1970 - y).toNat = (1970 - (y + 1)).toNat + 1 := by omega
    have hshift : ∑ i ∈ Finset.range (1970 - (y + 1)).toNat, yearLength (y + ((i + 1 : Nat) : Int)) =
        ∑ i ∈ Finset.range (1970 - (y + 1)).toNat, yearLength (y + 1 + i) := by
      refine Finset.sum_congr rfl fun i _ => ?_
      congr 1
      omega
    rw [if_neg hy, hn, Finset.sum_range_succ', hshift]
    simp only [Int.natCast_zero, add_zero]
    by_cases hend : 1970 ≤ y + 1
    · have hnew : (y + 1 - 1970).toNat = 0 := by omega
      have hold : (1970 - (y + 1)).toNat = 0 := by omega
      rw [if_pos hend, hnew, hold]
      simp
    · rw [if_neg hend]
      omega

theorem daysBeforeYear_eq (y : Int) : daysBeforeYear y =
    365 * (y - 1970) + (y - 1) / 4 - (y - 1) / 100 + (y - 1) / 400 - 477 := by
  have hlength : ∀ y, yearLength y =
      365 + (y / 4 - (y - 1) / 4) - (y / 100 - (y - 1) / 100) + (y / 400 - (y - 1) / 400) := by
    intro y
    unfold yearLength IsLeap
    split_ifs <;> omega
  induction y using Int.inductionOn' (b := 1970) with
  | zero => decide
  | succ y _ ih =>
    rw [daysBeforeYear_succ, ih, hlength]
    omega
  | pred y _ ih =>
    have hsucc := daysBeforeYear_succ (y - 1)
    rw [sub_add_cancel, ih, hlength] at hsucc
    omega

theorem daysBeforeYear_mono {y y' : Int} (h : y ≤ y') : daysBeforeYear y ≤ daysBeforeYear y' := by
  rw [daysBeforeYear_eq, daysBeforeYear_eq]
  omega

theorem daysBeforeMonth_add_le (y : Int) {m m' : Nat} (hm : 1 ≤ m) (h : m < m') :
    daysBeforeMonth y m + monthLength y m ≤ daysBeforeMonth y m' := by
  have hlast : daysBeforeMonth y m + monthLength y m =
      ∑ i ∈ Finset.range m, monthLength y (i + 1) := by
    obtain ⟨k, rfl⟩ : ∃ k, m = k + 1 := ⟨m - 1, by omega⟩
    rw [Finset.sum_range_succ]
    rfl
  rw [hlast]
  exact Finset.sum_le_sum_of_subset (Finset.range_subset_range.mpr (by omega))

theorem daysBeforeMonth_end (y : Int) : (daysBeforeMonth y 13 : Int) = yearLength y := by
  simp only [daysBeforeMonth, Finset.sum_range_succ, Finset.sum_range_zero, monthLength, yearLength]
  split_ifs <;> rfl

variable {d d' : Date}

theorem Date.Valid.year_bounds (h : d.Valid) :
    daysBeforeYear d.year ≤ d.dayNumber ∧ d.dayNumber < daysBeforeYear (d.year + 1) := by
  have hlast : d.month < 13 := by
    have hmonth := h.month
    omega
  have hle := daysBeforeMonth_add_le d.year h.month.1 hlast
  have hend := daysBeforeMonth_end d.year
  have hday := h.day
  rw [daysBeforeYear_succ, ← hend]
  unfold Date.dayNumber
  omega

theorem Date.Valid.eq_of_dayNumber (h : d.Valid) (h' : d'.Valid)
    (he : d.dayNumber = d'.dayNumber) : d = d' := by
  have hbounds := h.year_bounds
  have hbounds' := h'.year_bounds
  have hyear : d.year = d'.year := by
    rcases lt_trichotomy d.year d'.year with hlt | heq | hgt
    · have hmono := @daysBeforeYear_mono (d.year + 1) d'.year (by omega)
      omega
    · exact heq
    · have hmono := @daysBeforeYear_mono (d'.year + 1) d.year (by omega)
      omega
  have hday := h.day
  have hday' := h'.day
  unfold Date.dayNumber at he
  rw [← hyear] at he hday'
  have hmonth : d.month = d'.month := by
    rcases lt_trichotomy d.month d'.month with hlt | heq | hgt
    · have hle := daysBeforeMonth_add_le d.year h.month.1 hlt
      omega
    · exact heq
    · have hle := daysBeforeMonth_add_le d.year h'.month.1 hgt
      omega
  rw [← hmonth] at he
  obtain ⟨y, m, n⟩ := d
  obtain ⟨y', m', n'⟩ := d'
  simp only at hyear hmonth he
  rw [hyear, hmonth, show n = n' by omega]

end Calendar
