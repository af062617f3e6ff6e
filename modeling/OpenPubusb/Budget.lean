import Mathlib.Data.List.Basic

/-! Walking a list on a budget: each element that satisfies `p` costs one, and the
walk ends when the budget is used up. -/

namespace Budget

variable {ρ : Type*}

def visited (p : ρ → Bool) : Nat → List ρ → List ρ
  | 0, _ => []
  | _ + 1, [] => []
  | n + 1, x :: xs => x :: visited p (if p x then n else n + 1) xs

@[simp] theorem visited_zero (p : ρ → Bool) (l : List ρ) : visited p 0 l = [] := by
  cases l <;> rfl

theorem visited_initial (p : ρ → Bool) (n : Nat) (l : List ρ) : visited p n l <+: l := by
  induction l generalizing n with
  | nil => cases n <;> exact List.prefix_rfl
  | cons x xs ih =>
    cases n with
    | zero => exact List.nil_prefix
    | succ n => exact (List.prefix_cons_inj x).mpr (ih _)

theorem filter_visited (p : ρ → Bool) (n : Nat) (l : List ρ) :
    (visited p n l).filter p = (l.filter p).take n := by
  induction l generalizing n with
  | nil => cases n <;> simp [visited]
  | cons x xs ih =>
    cases n with
    | zero => simp [visited]
    | succ n =>
      by_cases hx : p x = true
      · simp [visited, hx, ih]
      · simp [visited, hx, ih]

theorem mem_visited {p : ρ → Bool} {n : Nat} {l l' : List ρ} {x : ρ}
    (h : l.countP p < n) : x ∈ visited p n (l ++ x :: l') := by
  induction l generalizing n with
  | nil =>
    cases n with
    | zero => omega
    | succ n => exact List.mem_cons_self
  | cons y ys ih =>
    cases n with
    | zero => omega
    | succ n =>
      refine List.mem_cons_of_mem _ (ih ?_)
      rw [List.countP_cons] at h
      split_ifs at h ⊢ <;> omega

/-- What the walk leaves out costs nothing when the budget covers the list. -/
theorem of_mem_drop_visited {p : ρ → Bool} {n : Nat} {l : List ρ} (h : l.countP p ≤ n) {x : ρ}
    (hx : x ∈ l.drop (visited p n l).length) : p x = false := by
  have hsplit := congrArg (List.filter p) (List.prefix_iff_eq_append.mp (visited_initial p n l))
  rw [List.filter_append] at hsplit
  have hall : (visited p n l).filter p = l.filter p := by
    rw [filter_visited, List.take_of_length_le]
    rwa [← List.countP_eq_length_filter]
  rw [hall] at hsplit
  have hnil := List.append_right_eq_self.mp hsplit
  simpa using List.filter_eq_nil_iff.mp hnil x hx

theorem visited_of_countP_lt {p : ρ → Bool} {n : Nat} {l : List ρ} (h : l.countP p < n) :
    visited p n l = l := by
  induction l generalizing n with
  | nil => cases n <;> rfl
  | cons x xs ih =>
    cases n with
    | zero => omega
    | succ n =>
      rw [List.countP_cons] at h
      have hrest : xs.countP p < if p x then n else n + 1 := by
        split_ifs at h ⊢ <;> omega
      rw [visited, ih hrest]

theorem visited_congr (p p' : ρ → Bool) {n : Nat} {l : List ρ}
    (h : ∀ x ∈ visited p n l, p' x = p x) : visited p' n l = visited p n l := by
  induction l generalizing n with
  | nil => cases n <;> rfl
  | cons x xs ih =>
    cases n with
    | zero => rfl
    | succ n =>
      have hx := h x List.mem_cons_self
      have hrest := ih fun y hy => h y (List.mem_cons_of_mem _ hy)
      simp only [visited, hx, hrest]

theorem visited_add (p : ρ → Bool) (n m : Nat) (l : List ρ) :
    visited p (n + m) l = visited p n l ++ visited p m (l.drop (visited p n l).length) := by
  induction l generalizing n with
  | nil => cases n <;> cases m <;> simp [visited]
  | cons x xs ih =>
    cases n with
    | zero => simp
    | succ n =>
      rw [Nat.succ_add]
      by_cases hx : p x = true
      · simp [visited, hx, ih]
      · have hrest := ih (n + 1)
        rw [Nat.succ_add] at hrest
        simp [visited, hx, hrest]

theorem visited_append_of_free {p : ρ → Bool} {m : Nat} (hm : 0 < m) {l l' : List ρ}
    (h : ∀ x ∈ l, p x = false) : visited p m (l ++ l') = l ++ visited p m l' := by
  induction l with
  | nil => rfl
  | cons x xs ih =>
    obtain ⟨k, rfl⟩ : ∃ k, m = k + 1 := ⟨m - 1, by omega⟩
    have hx := h x List.mem_cons_self
    simp [visited, hx, ih fun y hy => h y (List.mem_cons_of_mem _ hy)]

theorem visited_map {τ : Type*} (f : τ → ρ) (p : ρ → Bool) (n : Nat) (l : List τ) :
    visited p n (l.map f) = (visited (fun x => p (f x)) n l).map f := by
  induction l generalizing n with
  | nil => cases n <;> rfl
  | cons x xs ih =>
    cases n with
    | zero => rfl
    | succ n => simp [visited, ih]

end Budget
