import Mathlib.Data.Finset.Card
import Mathlib.Data.Finset.Max

/-! The compressed set of finished sequence numbers of a subscription: a
floor below which everything is done, and the done numbers above it. -/

namespace OpenPubusb

structure CursorRecord where
  attachSeq : Nat
  ackedFloor : Nat
  ackedAboveFloor : Finset Nat
  deriving DecidableEq

/-- The cursor a subscription starts with, and the one a seek writes. -/
def CursorRecord.fresh (attachSeq ackedFloor : Nat) : CursorRecord := ⟨attachSeq, ackedFloor, ∅⟩

def CursorRecord.isDone (c : CursorRecord) (seq : Nat) : Bool :=
  seq ≤ c.ackedFloor || seq ∈ c.ackedAboveFloor

/-- The `while` loop of `mark_done`. Every turn removes an element of the set,
so `fuel` turns suffice when the set has at most `fuel` elements. -/
def advanceFloor : Nat → Nat → Finset Nat → Nat × Finset Nat
  | 0, floor, above => (floor, above)
  | fuel + 1, floor, above =>
    if floor + 1 ∈ above then advanceFloor fuel (floor + 1) (above.erase (floor + 1))
    else (floor, above)

def markDone (c : CursorRecord) (seq : Nat) : CursorRecord :=
  if seq ≤ c.ackedFloor then c
  else if seq = c.ackedFloor + 1 then
    let r := advanceFloor c.ackedAboveFloor.card (c.ackedFloor + 1) c.ackedAboveFloor
    { c with ackedFloor := r.1, ackedAboveFloor := r.2 }
  else { c with ackedAboveFloor := insert seq c.ackedAboveFloor }

theorem CursorRecord.isDone_iff {c : CursorRecord} {seq : Nat} :
    c.isDone seq = true ↔ seq ≤ c.ackedFloor ∨ seq ∈ c.ackedAboveFloor := by
  simp [isDone]

theorem advanceFloor_le (fuel floor : Nat) (above : Finset Nat) :
    floor ≤ (advanceFloor fuel floor above).1 := by
  induction fuel generalizing floor above with
  | zero => exact le_rfl
  | succ fuel ih =>
    simp only [advanceFloor]
    split_ifs with h
    · exact (Nat.le_succ floor).trans (ih (floor + 1) _)
    · exact le_rfl

theorem advanceFloor_done (fuel floor : Nat) (above : Finset Nat) (seq : Nat) :
    (seq ≤ (advanceFloor fuel floor above).1 ∨ seq ∈ (advanceFloor fuel floor above).2) ↔
      (seq ≤ floor ∨ seq ∈ above) := by
  induction fuel generalizing floor above with
  | zero => exact Iff.rfl
  | succ fuel ih =>
    simp only [advanceFloor]
    split_ifs with h
    · rw [ih (floor + 1) (above.erase (floor + 1)), Finset.mem_erase]
      constructor
      · rintro (hs | ⟨_, hs⟩)
        · rcases Nat.lt_or_ge seq (floor + 1) with hlt | hge
          · exact Or.inl (by omega)
          · have he : seq = floor + 1 := by omega
            exact Or.inr (he ▸ h)
        · exact Or.inr hs
      · rintro (hs | hs)
        · exact Or.inl (by omega)
        · by_cases he : seq = floor + 1
          · exact Or.inl (by omega)
          · exact Or.inr ⟨he, hs⟩
    · exact Iff.rfl

theorem markDone_isDone (c : CursorRecord) (seq s : Nat) :
    (markDone c seq).isDone s = true ↔ c.isDone s = true ∨ s = seq := by
  simp only [CursorRecord.isDone_iff, markDone]
  split_ifs with hle heq
  · constructor
    · exact Or.inl
    · rintro (h | rfl)
      · exact h
      · exact Or.inl hle
  · rw [advanceFloor_done]
    constructor
    · rintro (h | h)
      · rcases Nat.lt_or_ge s seq with hs | hs
        · exact Or.inl (Or.inl (by omega))
        · exact Or.inr (by omega)
      · exact Or.inl (Or.inr h)
    · rintro ((h | h) | h)
      · exact Or.inl (by omega)
      · exact Or.inr h
      · exact Or.inl (by omega)
  · simp only [Finset.mem_insert]
    tauto

theorem markDone_attachSeq (c : CursorRecord) (seq : Nat) :
    (markDone c seq).attachSeq = c.attachSeq := by
  unfold markDone
  split_ifs <;> rfl

theorem markDone_floor_le (c : CursorRecord) (seq : Nat) :
    c.ackedFloor ≤ (markDone c seq).ackedFloor := by
  unfold markDone
  split_ifs
  · exact le_rfl
  · exact (Nat.le_succ _).trans (advanceFloor_le _ _ _)
  · exact le_rfl

/-- The message after the floor is open, and the done ones above it lie beyond. -/
def CursorRecord.Normal (c : CursorRecord) : Prop := ∀ n ∈ c.ackedAboveFloor, c.ackedFloor + 1 < n

/-- The loop runs until the message after the floor is open: it needs no more
turns than the set has elements. -/
theorem advanceFloor_normal (fuel floor : Nat) (above : Finset Nat) (hcard : above.card ≤ fuel)
    (h : ∀ n ∈ above, floor < n) :
    ∀ n ∈ (advanceFloor fuel floor above).2, (advanceFloor fuel floor above).1 + 1 < n := by
  induction fuel generalizing floor above with
  | zero =>
    intro n hn
    rw [Finset.card_eq_zero.mp (Nat.le_zero.mp hcard)] at hn
    exact absurd hn (Finset.notMem_empty n)
  | succ fuel ih =>
    simp only [advanceFloor]
    split_ifs with hmem
    · have hlt := Finset.card_erase_lt_of_mem hmem
      refine ih (floor + 1) (above.erase (floor + 1)) (by omega) fun n hn => ?_
      obtain ⟨hne, hn⟩ := Finset.mem_erase.mp hn
      have hgt := h n hn
      omega
    · intro n hn
      have hgt := h n hn
      have hne : n ≠ floor + 1 := fun he => hmem (he ▸ hn)
      omega

theorem markDone_normal {c : CursorRecord} (h : c.Normal) (seq : Nat) : (markDone c seq).Normal := by
  unfold markDone
  split_ifs with hle heq
  · exact h
  · exact advanceFloor_normal _ _ _ le_rfl h
  · intro n hn
    rcases Finset.mem_insert.mp hn with rfl | hn
    · change c.ackedFloor + 1 < n
      omega
    · exact h n hn

/-- What marking messages done does to a cursor. -/
structure CursorRecord.Advanced (c c' : CursorRecord) : Prop where
  attachSeq : c'.attachSeq = c.attachSeq
  floor : c.ackedFloor ≤ c'.ackedFloor
  done : ∀ q, c.isDone q = true → c'.isDone q = true
  normal : c.Normal → c'.Normal

theorem CursorRecord.Advanced.refl (c : CursorRecord) : c.Advanced c :=
  ⟨rfl, le_rfl, fun _ h => h, fun h => h⟩

theorem CursorRecord.Advanced.trans {c c' c'' : CursorRecord} (h : c.Advanced c')
    (h' : c'.Advanced c'') : c.Advanced c'' :=
  ⟨h'.attachSeq.trans h.attachSeq, h.floor.trans h'.floor, fun q hq => h'.done q (h.done q hq),
    fun hn => h'.normal (h.normal hn)⟩

theorem advanced_markDone (c : CursorRecord) (seq : Nat) : c.Advanced (markDone c seq) :=
  ⟨markDone_attachSeq c seq, markDone_floor_le c seq,
    fun q hq => (markDone_isDone c seq q).mpr (Or.inl hq), fun h => markDone_normal h seq⟩

theorem CursorRecord.fresh_isDone (attachSeq ackedFloor seq : Nat) :
    (CursorRecord.fresh attachSeq ackedFloor).isDone seq = true ↔ seq ≤ ackedFloor := by
  simp only [isDone_iff, fresh, Finset.notMem_empty, or_false]

end OpenPubusb
