import Mathlib.Order.RelClasses

/-! Pre- and postconditions for `EStateM`, whose error outcome keeps the
state reached when the error was raised. `Ensures m s Q E` is a weakest
precondition at the single state `s`, so that postconditions may mention
the state before the run. -/

namespace Hoare

variable {ε σ τ α β : Type}

def Ensures (m : EStateM ε σ α) (s : σ) (Q : α → σ → Prop) (E : ε → σ → Prop) : Prop :=
  match m s with
  | .ok a t => Q a t
  | .error e t => E e t

theorem Ensures.mono {m : EStateM ε σ α} {s : σ} {Q Q' : α → σ → Prop} {E E' : ε → σ → Prop}
    (h : Ensures m s Q E) (hq : ∀ a t, Q a t → Q' a t) (he : ∀ e t, E e t → E' e t) :
    Ensures m s Q' E' := by
  unfold Ensures at h ⊢
  cases hm : m s with
  | ok a t => rw [hm] at h; exact hq a t h
  | error e t => rw [hm] at h; exact he e t h

theorem Ensures.and {m : EStateM ε σ α} {s : σ} {Q Q' : α → σ → Prop} {E E' : ε → σ → Prop}
    (h : Ensures m s Q E) (h' : Ensures m s Q' E') :
    Ensures m s (fun a t => Q a t ∧ Q' a t) (fun e t => E e t ∧ E' e t) := by
  unfold Ensures at h h' ⊢
  cases hm : m s with
  | ok a t => rw [hm] at h h'; exact ⟨h, h'⟩
  | error e t => rw [hm] at h h'; exact ⟨h, h'⟩

theorem Ensures.of_ok {m : EStateM ε σ α} {s t : σ} {a : α} {Q : α → σ → Prop}
    {E : ε → σ → Prop} (h : Ensures m s Q E) (hm : m s = .ok a t) : Q a t := by
  unfold Ensures at h
  rw [hm] at h
  exact h

theorem Ensures.returns {m : EStateM ε σ α} {s : σ} {Q : α → σ → Prop}
    (h : Ensures m s Q fun _ _ => False) : ∃ a t, m s = .ok a t ∧ Q a t := by
  cases hm : m s with
  | ok a t => exact ⟨a, t, rfl, h.of_ok hm⟩
  | error e t =>
    unfold Ensures at h
    rw [hm] at h
    exact h.elim

theorem Ensures.of_error {m : EStateM ε σ α} {s t : σ} {e : ε} {Q : α → σ → Prop}
    {E : ε → σ → Prop} (h : Ensures m s Q E) (hm : m s = .error e t) : E e t := by
  unfold Ensures at h
  rw [hm] at h
  exact h

theorem Ensures.run_eq {m : EStateM ε σ α} {s : σ} {r : EStateM.Result ε σ α}
    (h : Ensures m s (fun a t => r = .ok a t) (fun e t => r = .error e t)) : m s = r := by
  unfold Ensures at h
  cases hr : m s with
  | ok a t =>
    rw [hr] at h
    exact h.symm
  | error e t =>
    rw [hr] at h
    exact h.symm

theorem estateGet_apply (s : σ) : (EStateM.get : EStateM ε σ σ) s = .ok s s := rfl

@[simp] theorem ensures_pure {a : α} {s : σ} {Q : α → σ → Prop} {E : ε → σ → Prop} :
    Ensures (pure a) s Q E ↔ Q a s := Iff.rfl

@[simp] theorem ensures_throw {e : ε} {s : σ} {Q : α → σ → Prop} {E : ε → σ → Prop} :
    Ensures (throw e) s Q E ↔ E e s := Iff.rfl

@[simp] theorem ensures_get {s : σ} {Q : σ → σ → Prop} {E : ε → σ → Prop} :
    Ensures (get : EStateM ε σ σ) s Q E ↔ Q s s := Iff.rfl

@[simp] theorem ensures_estateGet {s : σ} {Q : σ → σ → Prop} {E : ε → σ → Prop} :
    Ensures (EStateM.get : EStateM ε σ σ) s Q E ↔ Q s s := Iff.rfl

@[simp] theorem ensures_modify {f : σ → σ} {s : σ} {Q : Unit → σ → Prop} {E : ε → σ → Prop} :
    Ensures (modify f : EStateM ε σ Unit) s Q E ↔ Q () (f s) := Iff.rfl

@[simp] theorem ensures_bind {m : EStateM ε σ α} {f : α → EStateM ε σ β} {s : σ}
    {Q : β → σ → Prop} {E : ε → σ → Prop} :
    Ensures (m >>= f) s Q E ↔ Ensures m s (fun a t => Ensures (f a) t Q E) E := by
  unfold Ensures
  change (match EStateM.bind m f s with | .ok a t => Q a t | .error e t => E e t) ↔ _
  unfold EStateM.bind
  cases m s <;> rfl

@[simp] theorem ensures_map {m : EStateM ε σ α} {f : α → β} {s : σ}
    {Q : β → σ → Prop} {E : ε → σ → Prop} :
    Ensures (f <$> m) s Q E ↔ Ensures m s (fun a t => Q (f a) t) E := by
  unfold Ensures
  change (match EStateM.map f m s with | .ok a t => Q a t | .error e t => E e t) ↔ _
  unfold EStateM.map
  cases m s <;> rfl

@[simp] theorem ensures_ite {c : Prop} [Decidable c] {m m' : EStateM ε σ α} {s : σ}
    {Q : α → σ → Prop} {E : ε → σ → Prop} :
    Ensures (if c then m else m') s Q E ↔
      (c → Ensures m s Q E) ∧ (¬ c → Ensures m' s Q E) := by
  by_cases hc : c <;> simp [hc]

/-- A program that only ever moves along a preorder `R`, whether it
succeeds or fails. -/
def Keeps (R : σ → σ → Prop) (m : EStateM ε σ α) : Prop :=
  ∀ s, Ensures m s (fun _ t => R s t) (fun _ t => R s t)

section Keeps

variable {R : σ → σ → Prop}

theorem Keeps.pure [Std.Refl R] (a : α) : Keeps R (pure a : EStateM ε σ α) :=
  fun s => Std.Refl.refl s

theorem Keeps.throw [Std.Refl R] (e : ε) : Keeps R (throw e : EStateM ε σ α) :=
  fun s => Std.Refl.refl s

theorem Keeps.get [Std.Refl R] : Keeps R (get : EStateM ε σ σ) :=
  fun s => Std.Refl.refl s

theorem Keeps.estateGet [Std.Refl R] : Keeps R (EStateM.get : EStateM ε σ σ) :=
  fun s => Std.Refl.refl s

theorem Keeps.modify {f : σ → σ} (h : ∀ s, R s (f s)) : Keeps R (modify f : EStateM ε σ Unit) :=
  fun s => h s

theorem Keeps.bind [IsTrans σ R] {m : EStateM ε σ α} {f : α → EStateM ε σ β}
    (hm : Keeps R m) (hf : ∀ a, Keeps R (f a)) : Keeps R (m >>= f) := by
  intro s
  rw [ensures_bind]
  exact (hm s).mono
    (fun a t ht => (hf a t).mono (fun _ u hu => trans_of R ht hu) (fun _ u hu => trans_of R ht hu))
    (fun _ _ ht => ht)

theorem Keeps.bind_pure {m : EStateM ε σ α} (hm : Keeps R m) (f : α → β) :
    Keeps R (m >>= fun a => Pure.pure (f a)) := by
  intro s
  rw [ensures_bind]
  exact hm s

theorem Keeps.ite {c : Prop} [Decidable c] {m m' : EStateM ε σ α}
    (h : c → Keeps R m) (h' : ¬ c → Keeps R m') : Keeps R (if c then m else m') := by
  by_cases hc : c
  · simpa [hc] using h hc
  · simpa [hc] using h' hc

theorem Keeps.mono {R' : σ → σ → Prop} {m : EStateM ε σ α} (h : Keeps R m)
    (hr : ∀ s t, R s t → R' s t) : Keeps R' m :=
  fun s => (h s).mono (fun _ t => hr s t) (fun _ t => hr s t)

theorem Keeps.of_pre {P : σ → Prop} {m : EStateM ε σ α}
    (h : ∀ s, P s → Ensures m s (fun _ t => R s t) (fun _ t => R s t)) :
    Keeps (fun s t => P s → R s t) m := by
  intro s
  unfold Ensures
  cases hm : m s with
  | ok a t => exact fun hp => (h s hp).of_ok hm
  | error e t => exact fun hp => (h s hp).of_error hm

end Keeps

/-- Runs a program for its effect: an error becomes `false`, the state it left
is kept. -/
def succeeds (m : EStateM ε σ α) : EStateM ε σ Bool := fun s =>
  match m s with
  | .ok _ t => .ok true t
  | .error _ t => .ok false t

@[simp] theorem ensures_succeeds {m : EStateM ε σ α} {s : σ} {Q : Bool → σ → Prop}
    {E : ε → σ → Prop} :
    Ensures (succeeds m) s Q E ↔ Ensures m s (fun _ t => Q true t) (fun _ t => Q false t) := by
  unfold Ensures succeeds
  cases m s <;> rfl

def ignore (m : EStateM ε σ α) : EStateM ε σ Unit := do
  let _ ← succeeds m
  pure ()

theorem ensures_ignore {m : EStateM ε σ α} {s : σ} {Q : Unit → σ → Prop} {E : ε → σ → Prop} :
    Ensures (ignore m) s Q E ↔ Ensures m s (fun _ t => Q () t) (fun _ t => Q () t) := by
  simp only [ignore, ensures_bind, ensures_succeeds, ensures_pure]

theorem Keeps.ignore {R : σ → σ → Prop} {m : EStateM ε σ α} (h : Keeps R m) :
    Keeps R (ignore m) :=
  fun s => ensures_ignore.mpr (h s)

def focus (view : τ → σ) (put : τ → σ → τ) (m : EStateM ε σ α) : EStateM ε τ α := fun t =>
  match m (view t) with
  | .ok a s => .ok a (put t s)
  | .error e s => .error e (put t s)

theorem ensures_focus {view : τ → σ} {put : τ → σ → τ} {m : EStateM ε σ α} {t : τ}
    {Q : α → τ → Prop} {E : ε → τ → Prop} :
    Ensures (focus view put m) t Q E ↔
      Ensures m (view t) (fun a s => Q a (put t s)) (fun e s => E e (put t s)) := by
  unfold Ensures focus
  cases m (view t) <;> rfl

end Hoare
