import OpenPubusb.Hoare

/-! Programs that do not look at a part of the state. `put s x` overwrites the
part with `x`; a program is blind to it when it does the same whatever is there,
and leaves it as it finds it. -/

namespace Hoare

variable {ε σ ι α β : Type}

def mapState (f : σ → σ) : EStateM.Result ε σ α → EStateM.Result ε σ α
  | .ok a t => .ok a (f t)
  | .error e t => .error e (f t)

def Blind (put : σ → ι → σ) (m : EStateM ε σ α) : Prop :=
  ∀ s x, m (put s x) = mapState (fun t => put t x) (m s)

variable {put : σ → ι → σ}

theorem Blind.pure (a : α) : Blind put (pure a : EStateM ε σ α) := fun _ _ => rfl

theorem Blind.throw (e : ε) : Blind put (throw e : EStateM ε σ α) := fun _ _ => rfl

theorem Blind.modify {f : σ → σ} (h : ∀ s x, f (put s x) = put (f s) x) :
    Blind put (modify f : EStateM ε σ Unit) := by
  intro s x
  change EStateM.Result.ok () (f (put s x)) = EStateM.Result.ok () (put (f s) x)
  rw [h]

theorem Blind.bind {m : EStateM ε σ α} {f : α → EStateM ε σ β} (hm : Blind put m)
    (hf : ∀ a, Blind put (f a)) : Blind put (m >>= f) := by
  intro s x
  change EStateM.bind m f (put s x) = mapState _ (EStateM.bind m f s)
  unfold EStateM.bind
  rw [hm s x]
  cases m s with
  | ok a t => exact hf a t x
  | error e t => rfl

theorem Blind.get {f : σ → EStateM ε σ β} (hread : ∀ s x, f (put s x) = f s)
    (hf : ∀ s, Blind put (f s)) : Blind put (get >>= f) := by
  intro s x
  change f (put s x) (put s x) = mapState _ (f s s)
  rw [hread, hf s s x]

theorem Blind.ite {c : Prop} [Decidable c] {m m' : EStateM ε σ α} (h : Blind put m)
    (h' : Blind put m') : Blind put (if c then m else m') := by
  by_cases hc : c
  · simpa only [hc, if_true] using h
  · simpa only [hc, if_false] using h'

theorem Blind.focus {τ : Type} {view : σ → τ} {set : σ → τ → σ}
    (hview : ∀ s x, view (put s x) = view s) (hset : ∀ s x y, set (put s x) y = put (set s y) x)
    (m : EStateM ε τ α) : Blind put (focus view set m) := by
  intro s x
  unfold Hoare.focus
  rw [hview]
  cases m (view s) with
  | ok a t => exact congrArg (EStateM.Result.ok a) (hset s x t)
  | error e t => exact congrArg (EStateM.Result.error e) (hset s x t)

end Hoare
