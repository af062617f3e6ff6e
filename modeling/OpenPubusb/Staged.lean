import OpenPubusb.Hoare

/-! Programs that change what a view shows by one write after another. A write may lack
what it works on, and the store may refuse it: a program that fails has made the first
few of its writes, and nothing takes them back. -/

namespace Hoare

variable {ε σ ρ α β : Type}

/-- The writes, one after the other, as long as each finds what it works on. -/
def applyAll : List (ρ → Option ρ) → ρ → Option ρ
  | [], r => some r
  | w :: ws, r => (w r).bind (applyAll ws)

theorem applyAll_append (ws ws' : List (ρ → Option ρ)) (r : ρ) :
    applyAll (ws ++ ws') r = (applyAll ws r).bind (applyAll ws') := by
  induction ws generalizing r with
  | nil => rfl
  | cons w ws ih =>
    simp only [List.cons_append, applyAll, Option.bind_assoc]
    exact congrArg _ (funext ih)

/-- What ended the program: a refusal, or a write that has lost what it works on. -/
def Stopped (stuck : σ → Prop) (view : σ → ρ) (ws : List (ρ → Option ρ)) (k : Nat) (t : σ) : Prop :=
  stuck t ∨ ∃ w, ws[k]? = some w ∧ w (view t) = none

/-- The program makes the writes, or fails after the first `k` of them. -/
def Staged (stuck : σ → Prop) (view : σ → ρ) (ws : List (ρ → Option ρ)) (m : EStateM ε σ α)
    (s : σ) : Prop :=
  Ensures m s (fun _ t => applyAll ws (view s) = some (view t))
    (fun _ t => ∃ k < ws.length, applyAll (ws.take k) (view s) = some (view t) ∧
      Stopped stuck view ws k t)

/-- The same after checks, which fail before the first write. -/
def Checked (stuck : σ → Prop) (view : σ → ρ) (ws : List (ρ → Option ρ)) (m : EStateM ε σ α)
    (s : σ) : Prop :=
  Ensures m s (fun _ t => applyAll ws (view s) = some (view t))
    (fun _ t => view t = view s ∨ ∃ k < ws.length,
      applyAll (ws.take k) (view s) = some (view t) ∧ Stopped stuck view ws k t)

variable {stuck : σ → Prop} {view : σ → ρ} {ws ws' : List (ρ → Option ρ)} {s : σ}

theorem Stopped.refused {P : ρ → Prop} (hws : ∀ w ∈ ws, ∀ r, P r → ∃ r', w r = some r' ∧ P r')
    {r : ρ} (hr : P r) {k : Nat} {t : σ} (happ : applyAll (ws.take k) r = some (view t))
    (h : Stopped stuck view ws k t) : stuck t := by
  refine h.resolve_right fun ⟨w, hw, hnone⟩ => ?_
  have hkept : ∀ vs : List (ρ → Option ρ), (∀ v ∈ vs, v ∈ ws) → ∀ r r', P r →
      applyAll vs r = some r' → P r' := by
    intro vs hvs
    induction vs with
    | nil =>
      intro r r' hp happ
      cases happ
      exact hp
    | cons v vs ih =>
      intro r r' hp happ
      obtain ⟨r₁, hv, hp₁⟩ := hws v (hvs v List.mem_cons_self) r hp
      simp only [applyAll, hv, Option.bind_some] at happ
      exact ih (fun x hx => hvs x (List.mem_cons_of_mem _ hx)) r₁ r' hp₁ happ
  have hp := hkept (ws.take k) (fun v hv => List.mem_of_mem_take hv) r _ hr happ
  obtain ⟨r', hsome, _⟩ := hws w (List.mem_of_getElem? hw) _ hp
  rw [hnone] at hsome
  cases hsome

theorem Staged.checked {m : EStateM ε σ α} (h : Staged stuck view ws m s) :
    Checked stuck view ws m s :=
  h.mono (fun _ _ h => h) (fun _ _ h => Or.inr h)

theorem Staged.pure (a : α) : Staged stuck view [] (pure a : EStateM ε σ α) s :=
  (rfl : some (view s) = some (view s))

theorem Stopped.append_right {k : Nat} {t : σ} (h : Stopped stuck view ws k t) :
    Stopped stuck view (ws ++ ws') k t := by
  refine h.imp_right fun ⟨w, hw, hnone⟩ => ⟨w, ?_, hnone⟩
  rw [List.getElem?_append_left (List.getElem?_eq_some_iff.mp hw).1, hw]

theorem Stopped.append_left {k : Nat} {t : σ} (h : Stopped stuck view ws' k t) :
    Stopped stuck view (ws ++ ws') (ws.length + k) t := by
  refine h.imp_right fun ⟨w, hw, hnone⟩ => ⟨w, ?_, hnone⟩
  rw [List.getElem?_append_right (Nat.le_add_right _ _), Nat.add_sub_cancel_left, hw]

theorem Staged.bind {m : EStateM ε σ α} {f : α → EStateM ε σ β} (hm : Staged stuck view ws m s)
    (hf : ∀ a t, m s = .ok a t → Staged stuck view ws' (f a) t) :
    Staged stuck view (ws ++ ws') (m >>= f) s := by
  unfold Staged
  rw [ensures_bind]
  unfold Ensures
  cases hr : m s with
  | ok a t =>
    have ht := hm.of_ok hr
    refine (hf a t hr).mono (fun b u hu => ?_) (fun e u ⟨k, hk, happ, hstop⟩ => ?_)
    · rw [applyAll_append, ht]
      exact hu
    · refine ⟨ws.length + k, ?_, ?_, hstop.append_left⟩
      · rw [List.length_append]
        omega
      · rw [List.take_append, List.take_of_length_le (Nat.le_add_right _ _),
          Nat.add_sub_cancel_left, applyAll_append, ht]
        exact happ
  | error e t =>
    obtain ⟨k, hk, happ, hstop⟩ := hm.of_error hr
    refine ⟨k, ?_, ?_, hstop.append_right⟩
    · rw [List.length_append]
      omega
    · rw [List.take_append_of_le_length (Nat.le_of_lt hk), happ]

theorem Staged.cons {w : ρ → Option ρ} {m : EStateM ε σ α} {f : α → EStateM ε σ β}
    (hm : Staged stuck view [w] m s) (hf : ∀ a t, Staged stuck view ws (f a) t) :
    Staged stuck view (w :: ws) (m >>= f) s :=
  hm.bind fun a t _ => hf a t

theorem Staged.bind_pure {m : EStateM ε σ α} (hm : Staged stuck view ws m s) (f : α → β) :
    Staged stuck view ws (m >>= fun a => Pure.pure (f a)) s :=
  ensures_bind.mpr hm

theorem Checked.bind {m : EStateM ε σ α} {f : α → EStateM ε σ β}
    (hm : Ensures m s (fun _ t => view t = view s) (fun _ t => view t = view s))
    (hf : ∀ a t, m s = .ok a t → Checked stuck view ws (f a) t) :
    Checked stuck view ws (m >>= f) s := by
  unfold Checked
  rw [ensures_bind]
  unfold Ensures
  cases hr : m s with
  | error e t => exact Or.inl (hm.of_error hr)
  | ok a t =>
    have ht : view t = view s := hm.of_ok hr
    rw [← ht]
    exact hf a t hr

theorem Checked.get {f : σ → EStateM ε σ α} (h : Checked stuck view ws (f s) s) :
    Checked stuck view ws (get >>= f) s := h

theorem Checked.bind_pure {m : EStateM ε σ α} (hm : Checked stuck view ws m s) (f : α → β) :
    Checked stuck view ws (m >>= fun a => Pure.pure (f a)) s :=
  ensures_bind.mpr hm

theorem Checked.throw (e : ε) : Checked stuck view ws (throw e : EStateM ε σ α) s :=
  Or.inl rfl

end Hoare
