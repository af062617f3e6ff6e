import OpenPubusb.Hoare

/-! Programs over a store whose reads may fail. A failed read looks like an absent
value; writes go through. -/

namespace Hoare

variable {ε σ τ α β : Type}

/-- A store, and which of the reads to come return what is stored. -/
structure Flaky (σ : Type) where
  store : σ
  sees : Nat → Bool
  reads : Nat

namespace Flaky

def read (view : σ → Option α) : EStateM ε (Flaky σ) (Option α) := fun s =>
  .ok (if s.sees s.reads then view s.store else none) { s with reads := s.reads + 1 }

def write (m : EStateM ε σ α) : EStateM ε (Flaky σ) α :=
  focus Flaky.store (fun s t => { s with store := t }) m

def scan (part : σ → α) : EStateM ε (Flaky σ) α := fun s => .ok (part s.store) s

@[simp] theorem ensures_scan {part : σ → α} {s : Flaky σ} {Q : α → Flaky σ → Prop}
    {E : ε → Flaky σ → Prop} : Ensures (scan part) s Q E ↔ Q (part s.store) s :=
  Iff.rfl

@[simp] theorem ensures_read {view : σ → Option α} {s : Flaky σ}
    {Q : Option α → Flaky σ → Prop} {E : ε → Flaky σ → Prop} :
    Ensures (read view) s Q E ↔
      Q (if s.sees s.reads then view s.store else none) { s with reads := s.reads + 1 } :=
  Iff.rfl

theorem ensures_write {m : EStateM ε σ α} {s : Flaky σ} {Q : α → Flaky σ → Prop}
    {E : ε → Flaky σ → Prop} :
    Ensures (write m) s Q E ↔ Ensures m s.store (fun a t => Q a { s with store := t })
      (fun e t => E e { s with store := t }) :=
  ensures_focus

theorem ensures_lookup {view : σ → Option α} {f : Option α → EStateM ε (Flaky σ) β} {s : Flaky σ}
    {Q : β → Flaky σ → Prop} {E : ε → Flaky σ → Prop}
    (hnone : Ensures (f none) { s with reads := s.reads + 1 } Q E) :
    Ensures (read view >>= f) s Q E ↔ ∀ a, view s.store = some a → s.sees s.reads = true →
      Ensures (f (some a)) { s with reads := s.reads + 1 } Q E := by
  rw [ensures_bind, ensures_read]
  cases s.sees s.reads with
  | false => exact ⟨fun _ a _ h => (by cases h), fun _ => hnone⟩
  | true =>
    simp only [if_true]
    cases view s.store with
    | none => exact ⟨fun _ a ha => (by cases ha), fun _ => hnone⟩
    | some a =>
      refine ⟨fun h a' ha _ => ?_, fun h => h a rfl trivial⟩
      cases ha
      exact h

def outcome (f : σ → τ) : EStateM.Result ε σ α → EStateM.Result ε τ α
  | .ok a t => .ok a (f t)
  | .error e t => .error e (f t)

/-- When every read sees the store, the program does what `m'` does to the part `view` of
its state. -/
def MirrorsAt (view : τ → σ) (t : τ) (m : EStateM ε (Flaky σ) α) (m' : EStateM ε τ α) : Prop :=
  ∀ sees : Nat → Bool, (∀ n, sees n = true) → ∀ reads, ∃ n,
    m ⟨view t, sees, reads⟩ = outcome (fun u => ⟨view u, sees, n⟩) (m' t)

variable {view : τ → σ} {t : τ}

theorem MirrorsAt.pure (a : α) :
    MirrorsAt view t (pure a : EStateM ε (Flaky σ) α) (pure a) := fun _ _ reads => ⟨reads, rfl⟩

theorem MirrorsAt.throw (e : ε) :
    MirrorsAt view t (throw e : EStateM ε (Flaky σ) α) (throw e) := fun _ _ reads => ⟨reads, rfl⟩

theorem MirrorsAt.bind {m : EStateM ε (Flaky σ) α} {m' : EStateM ε τ α}
    {f : α → EStateM ε (Flaky σ) β} {f' : α → EStateM ε τ β} (hm : MirrorsAt view t m m')
    (hf : ∀ a u, m' t = .ok a u → MirrorsAt view u (f a) (f' a)) :
    MirrorsAt view t (m >>= f) (m' >>= f') := by
  intro sees hs reads
  obtain ⟨n, hn⟩ := hm sees hs reads
  change ∃ k, EStateM.bind m f _ = outcome _ (EStateM.bind m' f' t)
  unfold EStateM.bind
  rw [hn]
  cases hr : m' t with
  | ok a u => exact hf a u hr sees hs n
  | error e u => exact ⟨n, rfl⟩

theorem MirrorsAt.ite {c : Prop} [Decidable c] {m₁ m₂ : EStateM ε (Flaky σ) α}
    {m₁' m₂' : EStateM ε τ α} (h₁ : MirrorsAt view t m₁ m₁') (h₂ : MirrorsAt view t m₂ m₂') :
    MirrorsAt view t (if c then m₁ else m₂) (if c then m₁' else m₂') := by
  by_cases hc : c
  · simpa only [hc, if_true] using h₁
  · simpa only [hc, if_false] using h₂

theorem MirrorsAt.get {m : EStateM ε (Flaky σ) α} {f : τ → EStateM ε τ α}
    (h : MirrorsAt view t m (f t)) : MirrorsAt view t m (EStateM.get >>= f) := h

theorem MirrorsAt.read {part : σ → Option α} {f : Option α → EStateM ε (Flaky σ) β}
    {m' : EStateM ε τ β} (h : MirrorsAt view t (f (part (view t))) m') :
    MirrorsAt view t (Flaky.read part >>= f) m' := by
  intro sees hs reads
  obtain ⟨n, hn⟩ := h sees hs (reads + 1)
  refine ⟨n, ?_⟩
  rw [← hn]
  change f (if sees reads = true then _ else _) _ = _
  rw [hs reads]
  rfl

theorem MirrorsAt.scan {part : σ → α} {f : α → EStateM ε (Flaky σ) β} {m' : EStateM ε τ β}
    (h : MirrorsAt view t (f (part (view t))) m') :
    MirrorsAt view t (Flaky.scan part >>= f) m' := h

theorem MirrorsAt.write {s : σ} (m : EStateM ε σ α) : MirrorsAt id s (Flaky.write m) m := by
  intro sees _ reads
  refine ⟨reads, ?_⟩
  unfold Flaky.write focus
  simp only [id_eq]
  cases m s <;> rfl

theorem MirrorsAt.focus {put : τ → σ → τ} (hput : ∀ t s, view (put t s) = s)
    {m : EStateM ε (Flaky σ) α} {m' : EStateM ε σ α} (h : MirrorsAt id (view t) m m') :
    MirrorsAt view t m (focus view put m') := by
  intro sees hs reads
  obtain ⟨n, hn⟩ := h sees hs reads
  refine ⟨n, ?_⟩
  simp only [id_eq] at hn
  rw [hn]
  unfold Hoare.focus
  cases m' (view t) with
  | ok a s => simp only [outcome, hput]
  | error e s => simp only [outcome, hput]

end Flaky

end Hoare
