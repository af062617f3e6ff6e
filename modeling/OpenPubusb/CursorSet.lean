import OpenPubusb.Compact

/-! A cursor is an exact set of seqs. It stands for the same set however it was reached,
and a normal cursor is determined by its set. -/

namespace OpenPubusb

/-- `while above.remove(&(floor + 1)) { floor += 1 }`, with `fuel` tests at most. -/
def advanceFloorU64 : Nat → Nat → Finset Nat → Option (Nat × Finset Nat)
  | 0, _, _ => none
  | fuel + 1, floor, above => do
    let next ← succU64 floor
    if next ∈ above then do
      let floor ← succU64 floor
      advanceFloorU64 fuel floor (above.erase next)
    else some (floor, above)

/-- `mark_done` in 64-bit arithmetic: `none` when an addition overflows or the loop has not
ended after `fuel` tests. -/
def markDoneU64 (fuel : Nat) (c : CursorRecord) (seq : Nat) : Option CursorRecord :=
  if seq ≤ c.ackedFloor then some c
  else do
    let next ← succU64 c.ackedFloor
    if seq = next then do
      let floor ← succU64 c.ackedFloor
      let r ← advanceFloorU64 fuel floor c.ackedAboveFloor
      some { c with ackedFloor := r.1, ackedAboveFloor := r.2 }
    else some { c with ackedAboveFloor := insert seq c.ackedAboveFloor }

namespace CursorRecord

def done (c : CursorRecord) : Set Nat := {q | q ≤ c.ackedFloor} ∪ {q | q ∈ c.ackedAboveFloor}

def Below (c : CursorRecord) (n : Nat) : Prop :=
  c.ackedFloor < n ∧ ∀ q ∈ c.ackedAboveFloor, q < n

variable {c c' : CursorRecord}

theorem mem_done {q : Nat} : q ∈ c.done ↔ c.isDone q = true := isDone_iff.symm

theorem done_markDone (c : CursorRecord) (seq : Nat) : (markDone c seq).done = c.done ∪ {seq} := by
  ext q
  rw [Set.mem_union, mem_done, mem_done, markDone_isDone, Set.mem_singleton_iff]

theorem Normal.not_done (h : c.Normal) : c.ackedFloor + 1 ∉ c.done := by
  rw [mem_done, isDone_iff]
  rintro (hle | hmem)
  · omega
  · exact lt_irrefl _ (h _ hmem)

theorem Normal.floor_le (h : c.Normal) (hd : c.done = c'.done) : c'.ackedFloor ≤ c.ackedFloor := by
  by_contra hlt
  refine h.not_done ?_
  rw [hd, mem_done, isDone_iff]
  exact Or.inl (by omega)

theorem Normal.mem_above (h : c.Normal) {q : Nat} :
    q ∈ c.ackedAboveFloor ↔ q ∈ c.done ∧ c.ackedFloor < q := by
  constructor
  · intro hq
    have hgt := h q hq
    exact ⟨Or.inr hq, by omega⟩
  · rintro ⟨hle | hmem, hgt⟩
    · exact absurd hgt (not_lt.mpr hle)
    · exact hmem

theorem Normal.eq_of_done (h : c.Normal) (h' : c'.Normal) (hd : c.done = c'.done)
    (hattach : c.attachSeq = c'.attachSeq) : c = c' := by
  have hfloor : c.ackedFloor = c'.ackedFloor := le_antisymm (h'.floor_le hd.symm) (h.floor_le hd)
  have habove : c.ackedAboveFloor = c'.ackedAboveFloor := by
    ext q
    rw [h.mem_above, h'.mem_above, hd, hfloor]
  obtain ⟨a, f, s⟩ := c
  obtain ⟨a', f', s'⟩ := c'
  simp only at hattach hfloor habove
  rw [hattach, hfloor, habove]

end CursorRecord

section Marks

open CursorRecord

variable {c : CursorRecord}

theorem advanceFloorU64_eq {fuel floor : Nat} {above : Finset Nat} (hcard : above.card < fuel)
    (hfloor : floor < u64Max) (habove : ∀ q ∈ above, q < u64Max) {n : Nat} (hn : above.card ≤ n) :
    advanceFloorU64 fuel floor above = some (advanceFloor n floor above) := by
  induction fuel generalizing floor above n with
  | zero => omega
  | succ fuel ih =>
    rw [advanceFloorU64, succU64_eq hfloor]
    simp only [Option.bind_eq_bind, Option.bind_some]
    by_cases hmem : floor + 1 ∈ above
    · have hlt := Finset.card_erase_lt_of_mem hmem
      obtain ⟨n, rfl⟩ : ∃ k, n = k + 1 := ⟨n - 1, by omega⟩
      rw [if_pos hmem, advanceFloor, if_pos hmem]
      exact ih (by omega) (habove _ hmem) (fun q hq => habove q (Finset.mem_of_mem_erase hq))
        (by omega)
    · rw [if_neg hmem]
      cases n with
      | zero => rfl
      | succ n => rw [advanceFloor, if_neg hmem]

theorem markDoneU64_eq {fuel seq : Nat} (hfuel : c.ackedAboveFloor.card < fuel)
    (hc : c.Below u64Max) (hseq : seq < u64Max) :
    markDoneU64 fuel c seq = some (markDone c seq) := by
  unfold markDoneU64 markDone
  rw [succU64_eq hc.1]
  simp only [Option.bind_eq_bind, Option.bind_some]
  by_cases hle : seq ≤ c.ackedFloor
  · rw [if_pos hle, if_pos hle]
  · by_cases heq : seq = c.ackedFloor + 1
    · rw [if_neg hle, if_neg hle, if_pos heq, if_pos heq,
        advanceFloorU64_eq hfuel (heq ▸ hseq) hc.2 le_rfl]
      rfl
    · rw [if_neg hle, if_neg hle, if_neg heq, if_neg heq]

theorem CursorRecord.Below.markDone {n seq : Nat} (h : c.Below n) (hseq : seq < n) :
    (markDone c seq).Below n := by
  have hdone : ∀ q, (OpenPubusb.markDone c seq).isDone q = true → q < n := by
    intro q hq
    rcases (markDone_isDone c seq q).mp hq with hold | rfl
    · rcases isDone_iff.mp hold with hle | hmem
      · exact hle.trans_lt h.1
      · exact h.2 q hmem
    · exact hseq
  exact ⟨hdone _ (isDone_iff.mpr (Or.inl le_rfl)), fun q hq => hdone q (isDone_iff.mpr (Or.inr hq))⟩

theorem card_advanceFloor (fuel floor : Nat) (above : Finset Nat) :
    (advanceFloor fuel floor above).2.card ≤ above.card := by
  induction fuel generalizing floor above with
  | zero => exact le_rfl
  | succ fuel ih =>
    rw [advanceFloor]
    split_ifs
    · exact (ih _ _).trans (Finset.card_erase_le)
    · exact le_rfl

theorem card_markDone (c : CursorRecord) (seq : Nat) :
    (markDone c seq).ackedAboveFloor.card ≤ c.ackedAboveFloor.card + 1 := by
  unfold markDone
  split_ifs
  · exact Nat.le_succ _
  · exact (card_advanceFloor _ _ _).trans (Nat.le_succ _)
  · exact Finset.card_insert_le _ _

/-- Marking many messages done. -/
def markAll (c : CursorRecord) (seqs : List Nat) : CursorRecord := seqs.foldl markDone c

theorem markAll_cons (c : CursorRecord) (seq : Nat) (seqs : List Nat) :
    markAll c (seq :: seqs) = markAll (markDone c seq) seqs := rfl

theorem markAll_eq_foldlM {fuel : Nat} {seqs : List Nat}
    (hfuel : c.ackedAboveFloor.card + seqs.length < fuel) (hc : c.Below u64Max)
    (hseqs : ∀ q ∈ seqs, q < u64Max) : seqs.foldlM (markDoneU64 fuel) c = some (markAll c seqs) := by
  induction seqs generalizing c with
  | nil => rfl
  | cons seq seqs ih =>
    have hseq := hseqs seq List.mem_cons_self
    have hcard := card_markDone c seq
    simp only [List.length_cons] at hfuel
    rw [List.foldlM_cons, markDoneU64_eq (by omega) hc hseq]
    exact ih (by omega) (hc.markDone hseq) fun q hq => hseqs q (List.mem_cons_of_mem _ hq)

theorem markAll_normal (h : c.Normal) (seqs : List Nat) : (markAll c seqs).Normal := by
  induction seqs generalizing c with
  | nil => exact h
  | cons seq seqs ih => exact ih (markDone_normal h seq)

theorem markAll_attachSeq (c : CursorRecord) (seqs : List Nat) :
    (markAll c seqs).attachSeq = c.attachSeq := by
  induction seqs generalizing c with
  | nil => rfl
  | cons seq seqs ih => exact (ih _).trans (markDone_attachSeq c seq)

theorem done_markAll (c : CursorRecord) (seqs : List Nat) :
    (markAll c seqs).done = c.done ∪ {q | q ∈ seqs} := by
  induction seqs generalizing c with
  | nil =>
    ext q
    simp [markAll]
  | cons seq seqs ih =>
    ext q
    rw [markAll_cons, ih, done_markDone]
    simp only [Set.mem_union, Set.mem_singleton_iff, Set.mem_ofPred_eq, List.mem_cons]
    exact or_assoc

theorem markAll_eq_of_mem (h : c.Normal) {seqs seqs' : List Nat}
    (hmem : ∀ q, q ∈ seqs ↔ q ∈ seqs') : markAll c seqs = markAll c seqs' := by
  refine (markAll_normal h seqs).eq_of_done (markAll_normal h seqs') ?_ ?_
  · rw [done_markAll, done_markAll]
    ext q
    simp only [Set.mem_union, Set.mem_ofPred_eq, hmem]
  · rw [markAll_attachSeq, markAll_attachSeq]

end Marks

section Reached

/-- Every stored cursor is normal, those of the snapshots too. -/
structure NormalCursors (kv : Kv) : Prop where
  cursor : ∀ {i c}, kv.cursors.get i = some c → c.Normal
  snap : ∀ {j x}, kv.snaps.get j = some x → x.cursor.Normal

theorem normal_fresh (attachSeq floor : Nat) : (CursorRecord.fresh attachSeq floor).Normal :=
  fun _ h => absurd h (Finset.notMem_empty _)

theorem NormalCursors.step {s : Engine} (h : NormalCursors s.kv) (hc : Consistent s.kv)
    (hh : s.kv.Healthy) (i : Input) : NormalCursors (step s i).2.kv := by
  refine ⟨fun {j c'} hc' => ?_, fun {j x'} hx' => ?_⟩
  · rcases step_cursor hc hh hc' with ⟨c, hold, ha, _⟩ | hseek | ⟨_, r, _, rfl⟩
    · exact ha.normal (h.cursor hold)
    · obtain ⟨_, _, _, _, ⟨_, snap, hsnap, _, rfl⟩ | ⟨_, _, _, rfl⟩⟩ := seekTarget_cases hseek
      · obtain ⟨_, _, hs⟩ := snapshotGet_eq_ok hsnap
        exact h.snap hs
      · exact normal_fresh _ _
    · exact normal_fresh _ _
  · rcases step_snap hc hh hx' with ⟨x, hx, _, he⟩ | ⟨id, r, _, _, he⟩
    · rw [he]
      exact h.snap hx
    · exact h.cursor he

theorem normalCursors_final (is : List Input) : NormalCursors (Run.final step start is).kv := by
  have h : (Run.final step start is).WellFormed ∧ Consistent (Run.final step start is).kv ∧
      NormalCursors (Run.final step start is).kv := by
    refine Run.inv_final (C := fun _ => True)
      (P := fun s : Engine => s.WellFormed ∧ Consistent s.kv ∧ NormalCursors s.kv)
      (fun s i h _ => ?_) ⟨wellFormed_start, consistent_empty, ⟨?_, ?_⟩⟩ (fun _ _ => trivial)
    · have hev := (step_path i h.2.1 h.1.healthy).evolves h.2.1
      exact ⟨wellFormed_step h.1 i, hev.consistent, h.2.2.step h.2.1 h.1.healthy i⟩
    · exact fun hc => by cases hc
    · exact fun hx => by cases hx
  exact h.2.2

end Reached

/-- A cursor is an exact set, and every stored cursor is normal. -/
theorem cursor_exact_set :
    (∀ (c : CursorRecord) (seq fuel : Nat), c.Normal → c.Below u64Max → seq < u64Max →
      c.ackedAboveFloor.card < fuel → markDoneU64 fuel c seq = some (markDone c seq) ∧
        (markDone c seq).done = c.done ∪ {seq} ∧ (markDone c seq).Normal) ∧
    (∀ (c : CursorRecord) (seqs seqs' : List Nat) (fuel : Nat), c.Normal → c.Below u64Max →
      (∀ q ∈ seqs, q < u64Max) → (∀ q, q ∈ seqs ↔ q ∈ seqs') →
      c.ackedAboveFloor.card + max seqs.length seqs'.length < fuel →
      seqs.foldlM (markDoneU64 fuel) c = some (markAll c seqs) ∧
        seqs'.foldlM (markDoneU64 fuel) c = some (markAll c seqs)) ∧
    ∀ is, NormalCursors (Run.final step start is).kv := by
  refine ⟨fun c seq fuel hn hc hseq hfuel => ?_, fun c seqs seqs' fuel hn hc hseqs hmem hfuel => ?_,
    normalCursors_final⟩
  · exact ⟨markDoneU64_eq hfuel hc hseq, CursorRecord.done_markDone c seq, markDone_normal hn seq⟩
  · have hseqs' : ∀ q ∈ seqs', q < u64Max := fun q hq => hseqs q ((hmem q).mpr hq)
    refine ⟨markAll_eq_foldlM (by omega) hc hseqs, ?_⟩
    rw [markAll_eq_foldlM (by omega) hc hseqs', markAll_eq_of_mem hn hmem]

/-- The message that was missing carries the floor over the hole. -/
theorem cursor_exact_set_hole : markDoneU64 2 ⟨0, 1, {3}⟩ 2 = some ⟨0, 3, ∅⟩ ∧
    [2, 5, 2].foldlM (markDoneU64 5) ⟨0, 1, {3}⟩ = [5, 2].foldlM (markDoneU64 5) ⟨0, 1, {3}⟩ := by
  have hn : CursorRecord.Normal ⟨0, 1, {3}⟩ := by
    intro n hn
    rw [Finset.mem_singleton.mp hn]
    decide
  have hc : CursorRecord.Below ⟨0, 1, {3}⟩ u64Max := by
    refine ⟨by decide, fun q hq => ?_⟩
    rw [Finset.mem_singleton.mp hq]
    decide
  have hmark := (cursor_exact_set.1 ⟨0, 1, {3}⟩ 2 2 hn hc (by decide) (by decide)).1
  have hfold := cursor_exact_set.2.1 ⟨0, 1, {3}⟩ [2, 5, 2] [5, 2] 5 hn hc (by decide)
    (fun q => by simp; tauto) (by decide)
  exact ⟨hmark.trans (by decide), hfold.1.trans hfold.2.symm⟩

end OpenPubusb
