import OpenPubusb.CursorSet

/-! Acknowledgements as sets: however a client cuts its ids into calls, and in whatever
order it sends them, the same messages end up acknowledged. -/

namespace OpenPubusb

open Hoare

section Calls

variable {s t u : Engine} {subId : Nat} {xs ys : List String}

theorem hit_append {table : LeaseTable} {i q : Nat} :
    Hit table (xs ++ ys) i q ↔ Hit table xs i q ∨ Hit table ys i q := by
  simp only [Hit, List.mem_append, or_and_right, exists_or]

/-- Once `xs` are acknowledged, `ys` name what they named before and `xs` did not. -/
theorem Acknowledged.hit_iff (h : Acknowledged subId xs s t) {i q : Nat} :
    Hit t.leases ys i q ↔ Hit s.leases ys i q ∧ ¬ Hit s.leases xs i q := by
  constructor
  · rintro ⟨ackId, hmem, l, hl, hd⟩
    by_cases hx : Hit s.leases xs i q
    · rw [(h.leases i q).1 hx] at hl
      cases hl
    · rw [(h.leases i q).2 hx] at hl
      exact ⟨⟨ackId, hmem, l, hl, hd⟩, hx⟩
  · rintro ⟨⟨ackId, hmem, l, hl, hd⟩, hx⟩
    refine ⟨ackId, hmem, l, ?_, hd⟩
    rw [(h.leases i q).2 hx]
    exact hl

theorem Acknowledged.comp (h : Acknowledged subId xs s t) (h' : Acknowledged subId ys t u) :
    Acknowledged subId (xs ++ ys) s u where
  extended := h.extended.trans h'.extended
  filled := h.filled.trans h'.filled h'.extended
  cursors i hi := (h'.cursors i hi).trans (h.cursors i hi)
  cursor := h'.cursor.trans h.cursor
  dlv i q hi := (h'.dlv i q hi).trans (h.dlv i q hi)
  coherent hc := h'.coherent (h.coherent hc)
  sessions := by
    intro sid st hst
    obtain ⟨st', hst', hinfo⟩ := h'.sessions hst
    obtain ⟨st'', hst'', hinfo'⟩ := h.sessions hst'
    exact ⟨st'', hst'', hinfo.trans hinfo'⟩
  nextId := h'.nextId.trans h.nextId
  leases i q := by
    rw [hit_append]
    refine ⟨fun hhit => ?_, fun hno => ?_⟩
    · by_cases hx : Hit s.leases xs i q
      · by_cases hy : Hit t.leases ys i q
        · exact (h'.leases i q).1 hy
        · rw [(h'.leases i q).2 hy]
          exact (h.leases i q).1 hx
      · exact (h'.leases i q).1 (h.hit_iff.mpr ⟨hhit.resolve_left hx, hx⟩)
    · rw [not_or] at hno
      have hy : ¬ Hit t.leases ys i q := fun hy => hno.2 (h.hit_iff.mp hy).1
      rw [(h'.leases i q).2 hy]
      exact (h.leases i q).2 hno.1
  row q := by
    simp only [hit_append, exists_or]
    by_cases hy : ∃ j, Hit t.leases ys j q
    · refine ⟨fun _ => (h'.row q).1 hy, fun hno => ?_⟩
      exact absurd (Or.inr (hy.imp fun _ hj => (h.hit_iff.mp hj).1)) hno
    · rw [(h'.row q).2 hy]
      refine ⟨fun hhit => (h.row q).1 ?_, fun hno => (h.row q).2 fun hx => hno (Or.inl hx)⟩
      rcases hhit with hx | ⟨j, hj⟩
      · exact hx
      · by_cases hx : Hit s.leases xs j q
        · exact ⟨j, hx⟩
        · exact absurd ⟨j, h.hit_iff.mpr ⟨hj, hx⟩⟩ hy
  done {c} hc := by
    obtain ⟨c', hc', hdone, hadv⟩ := h.done hc
    obtain ⟨c'', hc'', hdone', hadv'⟩ := h'.done hc'
    refine ⟨c'', hc'', fun q => ?_, hadv.trans hadv'⟩
    rw [hdone' q, hdone q, or_assoc]
    simp only [hit_append, exists_or]
    refine or_congr_right ⟨?_, ?_⟩
    · rintro (hx | ⟨j, hj⟩)
      · exact Or.inl hx
      · exact Or.inr ⟨j, (h.hit_iff.mp hj).1⟩
    · rintro (hx | ⟨j, hj⟩)
      · exact Or.inl hx
      · by_cases hx : Hit s.leases xs j q
        · exact Or.inl ⟨j, hx⟩
        · exact Or.inr ⟨j, h.hit_iff.mpr ⟨hj, hx⟩⟩
  loaded hne := by
    by_cases hx : xs = []
    · subst hx
      obtain ⟨c, hc⟩ := h'.loaded hne
      have hsome := h.cursor
      rw [hc] at hsome
      exact Option.isSome_iff_exists.mp hsome.symm
    · exact h.loaded hx
  streams := h'.streams.trans h.streams
  log := h'.log.trans h.log
  msg := h'.msg.trans h.msg

/-- One `acknowledge` call after the other. -/
def ackCalls (subId : Nat) : List (List String) → EngineM Unit
  | [] => pure ()
  | ackIds :: calls => do
    acknowledge subId ackIds
    ackCalls subId calls

theorem ensures_ackCalls (calls : List (List String)) (hh : s.kv.Healthy) (hc : s.leases.Coherent)
    (hcur : (s.kv.cursors.get subId).isSome) :
    Ensures (ackCalls subId calls) s (fun _ t => Acknowledged subId calls.flatten s t)
      (fun _ _ => False) := by
  induction calls generalizing s with
  | nil => exact Acknowledged.refl subId s
  | cons ackIds calls ih =>
    simp only [ackCalls, ensures_bind]
    refine (ensures_acknowledge ackIds hh hc).mono (fun _ t h => ?_) (fun _ _ h => ?_)
    · have hht : t.kv.Healthy := fun n => by
        rw [h.extended.ok]
        exact hh n
      refine (ih hht (h.coherent hc) ?_).mono (fun _ u h' => ?_) (fun _ _ h => h)
      · rw [h.cursor]
        exact hcur
      · rw [List.flatten_cons]
        exact h.comp h'
    · rw [h.2] at hcur
      cases hcur

/-- The calls leave the same delivery state: leases, rows and cursors. -/
structure SameAcks (t t' : Engine) : Prop where
  leases : ∀ i q, t.leases.get i q = t'.leases.get i q
  rows : ∀ i q, t.kv.dlv.get ⟨i, q⟩ = t'.kv.dlv.get ⟨i, q⟩
  cursors : ∀ i, t.kv.cursors.get i = t'.kv.cursors.get i
  log : t.kv.msg = t'.kv.msg

theorem Acknowledged.same {t' : Engine} (h : Acknowledged subId xs s t)
    (h' : Acknowledged subId ys s t') (hmem : ∀ x, x ∈ xs ↔ x ∈ ys) {c : CursorRecord}
    (hc : s.kv.cursors.get subId = some c) (hn : c.Normal) : SameAcks t t' := by
  have hhit : ∀ i q, Hit s.leases xs i q ↔ Hit s.leases ys i q := by
    intro i q
    simp only [Hit, hmem]
  refine ⟨fun i q => ?_, fun i q => ?_, fun i => ?_, h.msg.trans h'.msg.symm⟩
  · by_cases hx : Hit s.leases xs i q
    · rw [(h.leases i q).1 hx, (h'.leases i q).1 ((hhit i q).mp hx)]
    · rw [(h.leases i q).2 hx, (h'.leases i q).2 fun hy => hx ((hhit i q).mpr hy)]
  · by_cases hi : i = subId
    · rw [hi]
      by_cases hx : ∃ j, Hit s.leases xs j q
      · rw [(h.row q).1 hx, (h'.row q).1 (hx.imp fun j hj => (hhit j q).mp hj)]
      · rw [(h.row q).2 hx, (h'.row q).2 fun hy => hx (hy.imp fun j hj => (hhit j q).mpr hj)]
    · rw [h.dlv i q hi, h'.dlv i q hi]
  · by_cases hi : i = subId
    · obtain ⟨c₁, hc₁, hdone₁, hadv₁⟩ := h.done hc
      obtain ⟨c₂, hc₂, hdone₂, hadv₂⟩ := h'.done hc
      rw [hi, hc₁, hc₂]
      refine congrArg some ((hadv₁.normal hn).eq_of_done (hadv₂.normal hn) ?_
        (hadv₁.attachSeq.trans hadv₂.attachSeq.symm))
      ext q
      rw [CursorRecord.mem_done, CursorRecord.mem_done, hdone₁ q, hdone₂ q]
      exact or_congr_right (exists_congr fun j => hhit j q)
    · rw [h.cursors i hi, h'.cursors i hi]

end Calls

/-- In every reachable state, two ways to cut the same ids into `acknowledge` calls, in any
order and with repetitions, leave the same leases, delivery rows, cursors and log. -/
theorem ack_batches_irrelevant (is : List Input) (subId : Nat)
    (hcur : ((Run.final step start is).kv.cursors.get subId).isSome)
    (calls calls' : List (List String))
    (hmem : ∀ x, (∃ ids ∈ calls, x ∈ ids) ↔ ∃ ids ∈ calls', x ∈ ids) :
    ∃ t t', ackCalls subId calls (Run.final step start is) = .ok () t ∧
      ackCalls subId calls' (Run.final step start is) = .ok () t' ∧ SameAcks t t' := by
  have hwf := wellFormed_final is
  have hnormal := normalCursors_final is
  generalize Run.final step start is = s at hcur hwf hnormal ⊢
  obtain ⟨c, hc⟩ := Option.isSome_iff_exists.mp hcur
  obtain ⟨⟨⟩, t, ht, h⟩ := (ensures_ackCalls calls hwf.healthy hwf.coherent hcur).returns
  obtain ⟨⟨⟩, t', ht', h'⟩ := (ensures_ackCalls calls' hwf.healthy hwf.coherent hcur).returns
  refine ⟨t, t', ht, ht', h.same h' (fun x => ?_) hc (hnormal.cursor hc)⟩
  simp only [List.mem_flatten]
  exact hmem x

/-- Two messages, leased by one pull. -/
def leasedPair : List Input :=
  setup {} ++ [⟨0, .publish "projects/p/topics/top1" [⟨[4], ∅, ""⟩]⟩,
    ⟨0, .pull "projects/p/subscriptions/subA" 10⟩]

/-- Two leases, acknowledged in one call or in three the other way round. -/
theorem ack_batches_irrelevant_pair :
    ((Run.final step start leasedPair).leases.get 2 1).isSome ∧
    ((Run.final step start leasedPair).leases.get 2 2).isSome ∧
    ∃ t t', ackCalls 2 [[encodeAckId 2 1 1, encodeAckId 2 2 1]] (Run.final step start leasedPair) =
        .ok () t ∧
      ackCalls 2 [[encodeAckId 2 2 1], [], [encodeAckId 2 1 1, encodeAckId 2 2 1]]
        (Run.final step start leasedPair) = .ok () t' ∧ SameAcks t t' := by
  have hmem : ∀ a b x : String,
      (∃ ids ∈ [[a, b]], x ∈ ids) ↔ ∃ ids ∈ [[b], [], [a, b]], x ∈ ids := by
    intro a b x
    simp only [List.mem_cons, List.not_mem_nil, or_false, exists_eq_or_imp, exists_eq_left]
    tauto
  exact ⟨by decide +kernel, by decide +kernel,
    ack_batches_irrelevant leasedPair 2 (by decide +kernel) _ _ (hmem _ _)⟩

end OpenPubusb
