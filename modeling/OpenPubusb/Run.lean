import Mathlib.Data.List.Induction

/-! Runs of a deterministic machine that answers every input. A run is the list
of its transitions; what a claim says about a whole history is a fold over that
list, and `observe_inv` carries an invariant that relates the fold to the
state. -/

namespace Run

variable {σ ι ρ η : Type}

structure Transition (σ ι ρ : Type) where
  pre : σ
  input : ι
  reply : ρ
  post : σ

def transition (step : σ → ι → ρ × σ) (s : σ) (i : ι) : Transition σ ι ρ :=
  ⟨s, i, (step s i).1, (step s i).2⟩

def trace (step : σ → ι → ρ × σ) (s : σ) : List ι → List (Transition σ ι ρ)
  | [] => []
  | i :: is => transition step s i :: trace step (step s i).2 is

def final (step : σ → ι → ρ × σ) (s : σ) : List ι → σ
  | [] => s
  | i :: is => final step (step s i).2 is

/-- The transition is one the machine makes. -/
def Transition.Valid (step : σ → ι → ρ × σ) (tr : Transition σ ι ρ) : Prop :=
  tr = transition step tr.pre tr.input

variable {step : σ → ι → ρ × σ}

theorem valid_of_mem_trace {s : σ} {is : List ι} {tr : Transition σ ι ρ}
    (h : tr ∈ trace step s is) : tr.Valid step := by
  induction is generalizing s with
  | nil => cases h
  | cons i is ih =>
    rcases List.mem_cons.mp h with rfl | h
    · rfl
    · exact ih h

theorem post_eq_of_mem {s : σ} {is : List ι} {tr : Transition σ ι ρ}
    (h : tr ∈ trace step s is) : tr.post = (step tr.pre tr.input).2 := by
  have hv := valid_of_mem_trace h
  unfold Transition.Valid at hv
  exact congrArg Transition.post hv

theorem mem_trace_append (s : σ) (is : List ι) (i : ι) :
    transition step (final step s is) i ∈ trace step s (is ++ [i]) := by
  induction is generalizing s with
  | nil => exact List.mem_cons_self
  | cons j is ih => exact List.mem_cons_of_mem _ (ih _)

theorem trace_append (s : σ) (is is' : List ι) :
    trace step s (is ++ is') = trace step s is ++ trace step (final step s is) is' := by
  induction is generalizing s with
  | nil => rfl
  | cons i is ih => exact congrArg _ (ih _)

theorem final_append (s : σ) (is is' : List ι) :
    final step s (is ++ is') = final step (final step s is) is' := by
  induction is generalizing s with
  | nil => rfl
  | cons i is ih => exact ih _

theorem map_input_trace (s : σ) (is : List ι) :
    (trace step s is).map Transition.input = is := by
  induction is generalizing s with
  | nil => rfl
  | cons i is ih => exact congrArg _ (ih _)

theorem forall_trace_of_inputs {C : Transition σ ι ρ → Prop} {s : σ} {is : List ι}
    (h : ∀ i ∈ is, ∀ s, C (transition step s i)) : ∀ tr ∈ trace step s is, C tr := by
  induction is generalizing s with
  | nil => exact fun _ h => by cases h
  | cons i is ih =>
    intro tr htr
    rcases List.mem_cons.mp htr with rfl | htr
    · exact h i List.mem_cons_self s
    · exact ih (fun j hj => h j (List.mem_cons_of_mem _ hj)) tr htr

theorem trace_eq_append {s : σ} {is : List ι} {l l' : List (Transition σ ι ρ)}
    {tr : Transition σ ι ρ} (h : trace step s is = l ++ tr :: l') :
    ∃ is₁ i is₂, is = is₁ ++ i :: is₂ ∧ l = trace step s is₁ ∧
      tr = transition step (final step s is₁) i ∧ l' = trace step tr.post is₂ := by
  induction l generalizing s is with
  | nil =>
    cases is with
    | nil => cases h
    | cons i is =>
      simp only [trace, List.nil_append, List.cons.injEq] at h
      exact ⟨[], i, is, rfl, rfl, h.1.symm, by rw [← h.2, ← h.1]; rfl⟩
  | cons tr' l ih =>
    cases is with
    | nil => cases h
    | cons i is =>
      simp only [trace, List.cons_append, List.cons.injEq] at h
      obtain ⟨is₁, j, is₂, rfl, rfl, hj, hl⟩ := ih h.2
      exact ⟨i :: is₁, j, is₂, rfl, by simp only [trace, h.1], hj, hl⟩

theorem between_of_mem {s : σ} {is : List ι} {l l' : List (Transition σ ι ρ)}
    {tr tr' : Transition σ ι ρ} (h : trace step s is = l ++ tr :: l') (h' : tr' ∈ l') :
    ∃ is₀ is₁, tr.post = final step s is₀ ∧ tr'.pre = final step tr.post is₁ ∧
      tr'.post = final step tr.post (is₁ ++ [tr'.input]) ∧
      ∀ x ∈ trace step tr.post (is₁ ++ [tr'.input]), x ∈ trace step s is := by
  obtain ⟨is₁, i, is₂, _, _, htr, hl'⟩ := trace_eq_append h
  obtain ⟨m, m', hm⟩ := List.append_of_mem (hl' ▸ h')
  obtain ⟨is₃, j, is₄, his₂, hmeq, htr', _⟩ := trace_eq_append hm
  have hpost : tr.post = final step s (is₁ ++ [i]) := by
    rw [htr, final_append]
    rfl
  refine ⟨is₁ ++ [i], is₃, hpost, ?_, ?_, fun x hx => ?_⟩
  · rw [htr']
    rfl
  · rw [htr', final_append]
    rfl
  · have hinput : tr'.input = j := by
      rw [htr']
      rfl
    rw [h]
    refine List.mem_append_right _ (List.mem_cons_of_mem _ ?_)
    rw [hl', his₂, ← List.singleton_append, ← List.append_assoc, trace_append]
    rw [hinput] at hx
    exact List.mem_append_left _ hx

/-- A transition of a run is its last one, or a transition of the run before that. -/
theorem trace_concat_eq_append {s : σ} {is : List ι} {i : ι} {l l' : List (Transition σ ι ρ)}
    {tr : Transition σ ι ρ} (h : trace step s (is ++ [i]) = l ++ tr :: l') :
    l = trace step s is ∧ tr = transition step (final step s is) i ∨
      ∃ l₁, trace step s is = l ++ tr :: l₁ := by
  rw [trace_append] at h
  change trace step s is ++ [transition step (final step s is) i] = _ at h
  cases l' using List.reverseRecOn with
  | nil =>
    obtain ⟨hl, htr⟩ := List.append_inj' h rfl
    rw [List.singleton_inj] at htr
    exact Or.inl ⟨hl.symm, htr.symm⟩
  | append_singleton l₁ x =>
    rw [← List.cons_append, ← List.append_assoc] at h
    exact Or.inr ⟨l₁, (List.append_inj' h rfl).1⟩

theorem observe_inv {C : Transition σ ι ρ → Prop} {obs : η → Transition σ ι ρ → η}
    {P : η → σ → Prop}
    (hstep : ∀ h s i, P h s → C (transition step s i) →
      P (obs h (transition step s i)) (step s i).2)
    {h : η} {s : σ} {is : List ι} (h0 : P h s) (hc : ∀ tr ∈ trace step s is, C tr) :
    P ((trace step s is).foldl obs h) (final step s is) := by
  induction is generalizing s h with
  | nil => exact h0
  | cons i is ih =>
    simp only [trace, List.mem_cons, forall_eq_or_imp] at hc
    exact ih (hstep h s i h0 hc.1) hc.2

/-- An invariant between the state and the transitions so far, when the condition
on a transition may look back at those before it. -/
theorem history_inv {C : List (Transition σ ι ρ) → Transition σ ι ρ → Prop}
    {P : List (Transition σ ι ρ) → σ → Prop}
    (hstep : ∀ l s i, P l s → C l (transition step s i) →
      P (l ++ [transition step s i]) (step s i).2)
    {s : σ} {is : List ι} (h0 : P [] s)
    (hc : ∀ l tr l', trace step s is = l ++ tr :: l' → C l tr) :
    P (trace step s is) (final step s is) := by
  induction is using List.reverseRecOn with
  | nil => exact h0
  | append_singleton is i ih =>
    have happ : trace step s (is ++ [i]) =
        trace step s is ++ [transition step (final step s is) i] := trace_append s is [i]
    have hfinal : final step s (is ++ [i]) = (step (final step s is) i).2 := final_append s is [i]
    rw [happ, hfinal]
    refine hstep _ _ _ (ih fun l tr l' hl => hc l tr (l' ++ [transition step (final step s is) i]) ?_)
      (hc _ _ [] happ)
    rw [happ, hl, List.append_assoc, List.cons_append]

theorem inv_final {C : Transition σ ι ρ → Prop} {P : σ → Prop}
    (hstep : ∀ s i, P s → C (transition step s i) → P (step s i).2)
    {s : σ} {is : List ι} (h0 : P s) (hc : ∀ tr ∈ trace step s is, C tr) :
    P (final step s is) := by
  induction is generalizing s with
  | nil => exact h0
  | cons i is ih =>
    simp only [trace, List.mem_cons, forall_eq_or_imp] at hc
    exact ih (hstep s i h0 hc.1) hc.2

theorem inv_pre {C : Transition σ ι ρ → Prop} {P : σ → Prop}
    (hstep : ∀ s i, P s → C (transition step s i) → P (step s i).2)
    {s : σ} {is : List ι} (h0 : P s) (hc : ∀ tr ∈ trace step s is, C tr) :
    ∀ tr ∈ trace step s is, P tr.pre := by
  induction is generalizing s with
  | nil => exact fun _ h => by cases h
  | cons i is ih =>
    simp only [trace, List.mem_cons, forall_eq_or_imp] at hc ⊢
    exact ⟨h0, ih (hstep s i h0 hc.1) hc.2⟩

end Run
