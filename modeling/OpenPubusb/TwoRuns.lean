import OpenPubusb.Hoare
import OpenPubusb.Run

/-! Two runs side by side. `Agrees` relates two programs that give the same answer
from two related states and end in related states again. For a machine, a relation
that hidden inputs do not leave and that all others keep, with equal replies, lets
the hidden inputs be left out of any run. -/

namespace Hoare

variable {ε σ τ α β : Type}

def Alike (R : σ → σ → Prop) : EStateM.Result ε σ α → EStateM.Result ε σ α → Prop
  | .ok a s, .ok b t => a = b ∧ R s t
  | .error e s, .error f t => e = f ∧ R s t
  | _, _ => False

def Agrees (R : σ → σ → Prop) (m m' : EStateM ε σ α) (s t : σ) : Prop :=
  Alike R (m s) (m' t)

variable {R : σ → σ → Prop} {s t : σ}

theorem agrees_pure (a : α) (h : R s t) :
    Agrees R (pure a : EStateM ε σ α) (pure a) s t :=
  ⟨rfl, h⟩

theorem agrees_throw (e : ε) (h : R s t) :
    Agrees R (throw e : EStateM ε σ α) (throw e) s t :=
  ⟨rfl, h⟩

theorem agrees_modify {f f' : σ → σ} (h : R (f s) (f' t)) :
    Agrees R (modify f : EStateM ε σ Unit) (modify f') s t :=
  ⟨rfl, h⟩

theorem Agrees.bind {m m' : EStateM ε σ α} {f f' : α → EStateM ε σ β} (hm : Agrees R m m' s t)
    (hf : ∀ a s t, R s t → Agrees R (f a) (f' a) s t) : Agrees R (m >>= f) (m' >>= f') s t := by
  unfold Agrees at hm ⊢
  change Alike R (EStateM.bind m f s) (EStateM.bind m' f' t)
  unfold EStateM.bind
  cases hs : m s with
  | ok a s₁ =>
    cases ht : m' t with
    | ok b t₁ =>
      rw [hs, ht] at hm
      obtain ⟨rfl, hr⟩ := hm
      exact hf a s₁ t₁ hr
    | error e t₁ =>
      rw [hs, ht] at hm
      exact hm.elim
  | error e s₁ =>
    cases ht : m' t with
    | ok b t₁ =>
      rw [hs, ht] at hm
      exact hm.elim
    | error e' t₁ =>
      rw [hs, ht] at hm
      exact hm

theorem agrees_get_bind {f f' : σ → EStateM ε σ β} (h : Agrees R (f s) (f' t) s t) :
    Agrees R (get >>= f) (get >>= f') s t :=
  h

theorem agrees_estateGet_bind {f f' : σ → EStateM ε σ β} (h : Agrees R (f s) (f' t) s t) :
    Agrees R (EStateM.get >>= f) (EStateM.get >>= f') s t :=
  h

theorem agrees_ite {c c' : Prop} [Decidable c] [Decidable c'] {m₁ m₂ m₁' m₂' : EStateM ε σ α}
    (hc : c ↔ c') (h₁ : c → Agrees R m₁ m₁' s t) (h₂ : ¬ c → Agrees R m₂ m₂' s t) :
    Agrees R (if c then m₁ else m₂) (if c' then m₁' else m₂') s t := by
  by_cases h : c
  · rw [if_pos h, if_pos (hc.mp h)]
    exact h₁ h
  · rw [if_neg h, if_neg fun h' => h (hc.mpr h')]
    exact h₂ h

theorem Agrees.ignore {m m' : EStateM ε σ α} (h : Agrees R m m' s t) :
    Agrees R (ignore m) (ignore m') s t := by
  unfold Agrees at h ⊢
  change Alike R (EStateM.bind (succeeds m) (fun _ => pure ()) s)
    (EStateM.bind (succeeds m') (fun _ => pure ()) t)
  unfold EStateM.bind succeeds
  cases hs : m s with
  | ok a s₁ =>
    cases ht : m' t with
    | ok b t₁ =>
      rw [hs, ht] at h
      exact ⟨rfl, h.2⟩
    | error e t₁ =>
      rw [hs, ht] at h
      exact h.elim
  | error e s₁ =>
    cases ht : m' t with
    | ok b t₁ =>
      rw [hs, ht] at h
      exact h.elim
    | error e' t₁ =>
      rw [hs, ht] at h
      exact ⟨rfl, h.2⟩

theorem agrees_focus {S : τ → τ → Prop} {get : σ → τ} {set : σ → τ → σ} {m m' : EStateM ε τ α}
    (h : Agrees S m m' (get s) (get t)) (hset : ∀ a b, S a b → R (set s a) (set t b)) :
    Agrees R (focus get set m) (focus get set m') s t := by
  unfold Agrees at h ⊢
  unfold focus
  cases hs : m (get s) with
  | ok a s₁ =>
    cases ht : m' (get t) with
    | ok b t₁ =>
      rw [hs, ht] at h
      exact ⟨h.1, hset _ _ h.2⟩
    | error e t₁ =>
      rw [hs, ht] at h
      exact h.elim
  | error e s₁ =>
    cases ht : m' (get t) with
    | ok b t₁ =>
      rw [hs, ht] at h
      exact h.elim
    | error e' t₁ =>
      rw [hs, ht] at h
      exact ⟨h.1, hset _ _ h.2⟩

end Hoare

namespace Run

variable {σ ι ρ : Type} {step : σ → ι → ρ × σ}

/-- The replies to the inputs that are not hidden. -/
def shown (step : σ → ι → ρ × σ) (hidden : ι → Bool) (s : σ) (is : List ι) : List ρ :=
  ((trace step s is).filter fun tr => !hidden tr.input).map Transition.reply

def purge (hidden : ι → Bool) (is : List ι) : List ι := is.filter fun i => !hidden i

/-- The hidden inputs of a run can be left out: no other reply changes, and the two
runs end in related states. -/
theorem shown_purge {R : σ → σ → Prop} {C : ι → Prop} {hidden : ι → Bool}
    (hhid : ∀ s t i, R s t → C i → hidden i = true → R (step s i).2 t)
    (hvis : ∀ s t i, R s t → C i → hidden i = false →
      (step s i).1 = (step t i).1 ∧ R (step s i).2 (step t i).2)
    {s t : σ} (h : R s t) {is : List ι} (hc : ∀ i ∈ is, C i) :
    shown step hidden s is = (trace step t (purge hidden is)).map Transition.reply ∧
      R (final step s is) (final step t (purge hidden is)) := by
  induction is generalizing s t with
  | nil => exact ⟨rfl, h⟩
  | cons i is ih =>
    have hrest : ∀ j ∈ is, C j := fun j hj => hc j (List.mem_cons_of_mem _ hj)
    cases hi : hidden i with
    | true =>
      have hpurge : purge hidden (i :: is) = purge hidden is := by simp [purge, hi]
      have hshown : shown step hidden s (i :: is) = shown step hidden (step s i).2 is := by
        simp [shown, trace, transition, hi]
      rw [hpurge, hshown]
      exact ih (hhid s t i h (hc i List.mem_cons_self) hi) hrest
    | false =>
      obtain ⟨hreply, hr⟩ := hvis s t i h (hc i List.mem_cons_self) hi
      obtain ⟨hs, hf⟩ := ih hr hrest
      have hpurge : purge hidden (i :: is) = i :: purge hidden is := by simp [purge, hi]
      have hshown : shown step hidden s (i :: is) =
          (step s i).1 :: shown step hidden (step s i).2 is := by
        simp [shown, trace, transition, hi]
      rw [hpurge, hshown, hs, hreply]
      exact ⟨rfl, hf⟩

end Run
