import OpenPubusb.RefineOps

/-! The contract of `lease_next`: which messages are ready, which of them are leased
and which go to the dead-letter topic, and that a call which returns does this and
nothing else. -/

namespace OpenPubusb

open Hoare

section Readiness

variable (a : LeaseArgs) (s : Engine) (c : CursorRecord)

/-- The dead-letter topic of the subscription, when it exists. -/
def deadLetterTopic : Option TopicRecord :=
  match TopicStore.get s.kv ((reclaimPolicy s.kv a.subId).deadLetter.topic.getD "") with
  | .ok dlq => some dlq
  | .error _ => none

/-- A ready message with as many deliveries as the policy allows. -/
def deadLetters (row : Nat × MessageRecord) : Bool :=
  ready a s c row &&
    shouldDeadLetter (s.priorAttempts a.subId row.1) (reclaimPolicy s.kv a.subId).deadLetter &&
    (deadLetterTopic a s).isSome

def leasable (row : Nat × MessageRecord) : Bool := ready a s c row && !deadLetters a s c row

/-- The messages scanned until as many are leased as the call may lease. -/
def scannedRows : List (Nat × MessageRecord) :=
  Budget.visited (leasable a s c) a.maxMessages (scanPrefix s.kv.msg a.topicId)

def leasedRows : List (Nat × MessageRecord) :=
  ((scanPrefix s.kv.msg a.topicId).filter (leasable a s c)).take a.maxMessages

def deadLetterRows : List (Nat × MessageRecord) :=
  (deadLetterTopic a s).toList.flatMap fun dlq =>
    ((scannedRows a s c).filter (deadLetters a s c)).map fun row =>
      (dlq.id, copyRow s.kv a row.2 dlq (s.priorAttempts a.subId row.1))

end Readiness

/-- What a call of `lease_next` promises: `c` is the cursor before it. -/
structure LeaseContract (a : LeaseArgs) (s : Engine) (c : CursorRecord) (out : List Delivered)
    (t : Engine) : Prop where
  returned : out = (leasedRows a s c).map fun row =>
    deliver a row.1 row.2 (satSuccU32 (s.priorAttempts a.subId row.1))
  ascending : (out.map Delivered.seq).Pairwise (· < ·)
  leased : ∀ row ∈ leasedRows a s c,
    t.leases.get a.subId row.1 = some (newLease a row.1 (s.priorAttempts a.subId row.1)) ∧
    t.kv.dlv.get ⟨a.subId, row.1⟩ = some (newLease a row.1 (s.priorAttempts a.subId row.1)).record
  removed : ∀ row ∈ scannedRows a s c, deadLetters a s c row = true →
    t.leases.get a.subId row.1 = none ∧ t.kv.dlv.get ⟨a.subId, row.1⟩ = none
  others : ∀ i q, (i = a.subId → ∀ row ∈ scannedRows a s c, row.1 = q →
      leasable a s c row = false ∧ deadLetters a s c row = false) →
    t.leases.get i q = s.leases.get i q ∧ t.kv.dlv.get ⟨i, q⟩ = s.kv.dlv.get ⟨i, q⟩
  done : ∃ c', t.kv.cursors.get a.subId = some c' ∧ ∀ q, c'.isDone q = true ↔
    c.isDone q = true ∨ ∃ row ∈ scannedRows a s c, row.1 = q ∧
      (rejected a c row = true ∨ deadLetters a s c row = true)
  cursors : ∀ i ≠ a.subId, t.kv.cursors.get i = s.kv.cursors.get i
  appended : t.kv.msg = (appendRows s.kv (deadLetterRows a s c)).msg ∧
    t.kv.topicSeq = (appendRows s.kv (deadLetterRows a s c)).topicSeq

section Decisions

variable {a : LeaseArgs} {s : Engine} {c : CursorRecord} {row : Nat × MessageRecord}

theorem not_rejected_of_ready (h : ready a s c row = true) : rejected a c row = false := by
  simp only [ready, Bool.and_eq_true, Bool.not_eq_true'] at h
  simp [rejected, h.1.1.2]

theorem judge_eq (h : ∀ e, judge a s c row.1 row.2 ≠ .refuse e) :
    judge a s c row.1 row.2 =
      if leasable a s c row then .lease (s.priorAttempts a.subId row.1)
      else if deadLetters a s c row then
        match deadLetterTopic a s with
        | some dlq => .forward dlq (s.priorAttempts a.subId row.1)
        | none => .skip
      else if rejected a c row then .filtered else .skip := by
  cases hr : ready a s c row with
  | false =>
    have hdead : deadLetters a s c row = false := by simp [deadLetters, hr]
    have hlease : leasable a s c row = false := by simp [leasable, hr]
    rw [judge_of_not_ready hr, hdead, hlease]
    simp
  | true =>
    rw [judge_of_ready hr] at h ⊢
    simp only [leasable, deadLetters, hr, Bool.true_and, deadLetterTopic]
    unfold redeliver at h ⊢
    cases hsd : shouldDeadLetter (s.priorAttempts a.subId row.1)
      (reclaimPolicy s.kv a.subId).deadLetter with
    | false => simp
    | true =>
      rw [hsd] at h
      cases hg : TopicStore.get s.kv ((reclaimPolicy s.kv a.subId).deadLetter.topic.getD "") with
      | error e =>
        rw [hg] at h
        cases e with
        | notFound e => simp
        | _ => exact absurd rfl (h _)
      | ok dlq =>
        rw [hg] at h
        cases hv : TopicStore.validateBatch [deadLetterCopy row.2 (reclaimPolicy s.kv a.subId)
          (s.priorAttempts a.subId row.1)] with
        | error e =>
          simp only [hv, if_true] at h
          exact absurd rfl (h e)
        | ok u => simp

theorem leases_eq (h : ∀ e, judge a s c row.1 row.2 ≠ .refuse e) :
    (judge a s c row.1 row.2).leases = leasable a s c row := by
  rw [judge_eq h]
  cases leasable a s c row with
  | true => rfl
  | false =>
    simp only [Bool.false_eq_true, if_false]
    split_ifs
    · cases deadLetterTopic a s <;> rfl
    · rfl
    · rfl

theorem planned_eq (h : ∀ v ∈ planned a s c, ∀ e, v.verdict ≠ .refuse e) :
    planned a s c = judgeAll a s c (scannedRows a s c) := by
  unfold planned visits judgeAll at h ⊢
  rw [Budget.visited_map] at h ⊢
  unfold scannedRows
  rw [← Budget.visited_congr (fun row => (judge a s c row.1 row.2).leases) (leasable a s c)
    fun row hrow => ?_]
  refine (leases_eq fun e he => ?_).symm
  exact h _ (List.mem_map.mpr ⟨row, hrow, rfl⟩) e he

theorem deadLetterTopic_of_deadLetters (h : deadLetters a s c row = true) :
    ∃ dlq, deadLetterTopic a s = some dlq := by
  simp only [deadLetters, Bool.and_eq_true] at h
  exact Option.isSome_iff_exists.mp h.2

theorem not_leasable_of_deadLetters (h : deadLetters a s c row = true) :
    leasable a s c row = false := by
  simp [leasable, h]

theorem leasedRows_eq : leasedRows a s c = (scannedRows a s c).filter (leasable a s c) :=
  (Budget.filter_visited _ _ _).symm

end Decisions

section Contract

variable {a : LeaseArgs} {s t u : Engine} {c : CursorRecord} {out : List Delivered} {sc : Scan}

theorem delivery_judged {row : Nat × MessageRecord}
    (h : ∀ e, judge a s c row.1 row.2 ≠ .refuse e) :
    Judged.delivery a ⟨row.1, row.2, judge a s c row.1 row.2⟩ =
      if leasable a s c row then
        some (deliver a row.1 row.2 (satSuccU32 (s.priorAttempts a.subId row.1))) else none := by
  rw [Judged.delivery, judge_eq h]
  cases leasable a s c row with
  | true => rfl
  | false =>
    simp only [Bool.false_eq_true, if_false]
    split_ifs
    · cases deadLetterTopic a s <;> rfl
    · rfl
    · rfl

theorem copy_judged {row : Nat × MessageRecord} (h : ∀ e, judge a s c row.1 row.2 ≠ .refuse e) :
    Judged.copy s.kv a ⟨row.1, row.2, judge a s c row.1 row.2⟩ =
      if deadLetters a s c row then (deadLetterTopic a s).map fun dlq =>
        (dlq.id, copyRow s.kv a row.2 dlq (s.priorAttempts a.subId row.1)) else none := by
  rw [Judged.copy, judge_eq h]
  cases hl : leasable a s c row with
  | true =>
    have hdead : deadLetters a s c row = false := by
      by_contra hd
      rw [not_leasable_of_deadLetters (by simpa using hd)] at hl
      cases hl
    simp [hdead]
  | false =>
    simp only [Bool.false_eq_true, if_false]
    split_ifs
    · cases deadLetterTopic a s <;> rfl
    · rfl
    · rfl

theorem finishes_judged {row : Nat × MessageRecord}
    (h : ∀ e, judge a s c row.1 row.2 ≠ .refuse e) :
    (judge a s c row.1 row.2).finishes = true ↔
      rejected a c row = true ∨ deadLetters a s c row = true := by
  rw [judge_eq h]
  cases hl : leasable a s c row with
  | true =>
    have hready : ready a s c row = true := by
      simp only [leasable, Bool.and_eq_true] at hl
      exact hl.1
    have hdead : deadLetters a s c row = false := by
      simp only [leasable, Bool.and_eq_true, Bool.not_eq_true'] at hl
      exact hl.2
    simp [hdead, not_rejected_of_ready hready, Verdict.finishes]
  | false =>
    cases hd : deadLetters a s c row with
    | true =>
      obtain ⟨dlq, hdlq⟩ := deadLetterTopic_of_deadLetters hd
      simp [hdlq, Verdict.finishes]
    | false => cases rejected a c row <;> simp [Verdict.finishes]

theorem copies_eq (h : ∀ row ∈ scannedRows a s c, ∀ e, judge a s c row.1 row.2 ≠ .refuse e) :
    (judgeAll a s c (scannedRows a s c)).filterMap (Judged.copy s.kv a) = deadLetterRows a s c := by
  have hcopies : (judgeAll a s c (scannedRows a s c)).filterMap (Judged.copy s.kv a) =
      (scannedRows a s c).filterMap fun row => if deadLetters a s c row then
        (deadLetterTopic a s).map fun dlq =>
          (dlq.id, copyRow s.kv a row.2 dlq (s.priorAttempts a.subId row.1)) else none := by
    rw [judgeAll, List.filterMap_map]
    exact List.filterMap_congr fun row hrow => copy_judged (h row hrow)
  rw [hcopies, ← List.filterMap_filter, deadLetterRows]
  cases deadLetterTopic a s with
  | none => simp
  | some dlq => simp [List.filterMap_eq_map']

theorem withCursor_get (hscan : ScanExact a (planned a s c) s ⟨c, false, []⟩ u sc)
    (hc : s.kv.cursors.get a.subId = some c) (i : Nat) :
    (u.withCursor a.subId sc).kv.cursors.get i =
      if i = a.subId then some sc.cursor else s.kv.cursors.get i := by
  obtain ⟨dlv, hkv⟩ := hscan.kv
  obtain ⟨_, _, hrows⟩ := appendRows_kept s.kv ((planned a s c).filterMap (Judged.copy s.kv a))
  have hcur : u.kv.cursors = s.kv.cursors := by rw [hkv, hrows]
  unfold Engine.withCursor
  split_ifs with hch hi
  · rw [hi]
    exact SortedMap.get_insert_self ..
  · exact (SortedMap.get_insert_ne _ _ hi).trans (by rw [hcur])
  · have hsame := hscan.changed
    rw [Bool.false_or] at hsame
    rw [hscan.unchanged (by rw [← hsame]; simpa using hch), hcur, ‹i = a.subId›, hc]
  · rw [hcur]

theorem withCursor_rest (a : LeaseArgs) (u : Engine) (sc : Scan) :
    (u.withCursor a.subId sc).leases = u.leases ∧
    (u.withCursor a.subId sc).kv.dlv = u.kv.dlv ∧ (u.withCursor a.subId sc).kv.msg = u.kv.msg ∧
    (u.withCursor a.subId sc).kv.topicSeq = u.kv.topicSeq := by
  unfold Engine.withCursor
  split_ifs
  · exact ⟨rfl, rfl, rfl, rfl⟩
  · exact ⟨rfl, rfl, rfl, rfl⟩

theorem LeaseExact.contract (h : LeaseExact a s c out t) (hc : s.kv.cursors.get a.subId = some c) :
    LeaseContract a s c out t := by
  obtain ⟨u, sc, hscan, hout, _, rfl⟩ := h
  obtain ⟨hleases, hdlv, hmsg, hseq⟩ := withCursor_rest a u sc
  have hplan := planned_eq hscan.taken
  have htaken : ∀ row ∈ scannedRows a s c, ∀ e, judge a s c row.1 row.2 ≠ .refuse e := by
    intro row hrow e
    refine hscan.taken ⟨row.1, row.2, judge a s c row.1 row.2⟩ ?_ e
    rw [hplan]
    exact List.mem_map.mpr ⟨row, hrow, rfl⟩
  have hvisited : ∀ row ∈ scannedRows a s c,
      (u.withCursor a.subId sc).leases.get a.subId row.1 =
        (judge a s c row.1 row.2).leaseAfter a row.1 (s.leases.get a.subId row.1) ∧
      (u.withCursor a.subId sc).kv.dlv.get ⟨a.subId, row.1⟩ =
        (judge a s c row.1 row.2).rowAfter a row.1 (s.kv.dlv.get ⟨a.subId, row.1⟩) := by
    intro row hrow
    rw [hleases, hdlv]
    refine hscan.visited ⟨row.1, row.2, judge a s c row.1 row.2⟩ ?_
    rw [hplan]
    exact List.mem_map.mpr ⟨row, hrow, rfl⟩
  have hreturned : out = (leasedRows a s c).map fun row =>
      deliver a row.1 row.2 (satSuccU32 (s.priorAttempts a.subId row.1)) := by
    rw [hout, hscan.out, hplan, judgeAll, List.filterMap_map, List.nil_append, leasedRows_eq,
      ← List.filterMap_eq_map, List.filterMap_filter]
    exact List.filterMap_congr fun row hrow => delivery_judged (htaken row hrow)
  refine ⟨hreturned, ?_, fun row hrow => ?_, fun row hrow hdead => ?_, fun i q hq => ?_,
    ⟨sc.cursor, by rw [withCursor_get hscan hc, if_pos rfl], fun q => ?_⟩, fun i hi => ?_, ?_⟩
  · rw [hreturned, List.map_map]
    refine (scanPrefix_increasing s.kv.msg a.topicId).sublist ?_
    exact ((List.take_sublist _ _).trans List.filter_sublist).map _
  · rw [leasedRows_eq, List.mem_filter] at hrow
    obtain ⟨hl, hr⟩ := hvisited row hrow.1
    rw [hl, hr, judge_eq (htaken row hrow.1), if_pos hrow.2]
    exact ⟨rfl, rfl⟩
  · obtain ⟨hl, hr⟩ := hvisited row hrow
    obtain ⟨dlq, hdlq⟩ := deadLetterTopic_of_deadLetters hdead
    rw [hl, hr, judge_eq (htaken row hrow), not_leasable_of_deadLetters hdead, hdead, hdlq]
    exact ⟨rfl, rfl⟩
  · by_cases hin : i = a.subId ∧ ∃ row ∈ scannedRows a s c, row.1 = q
    · obtain ⟨rfl, row, hrow, rfl⟩ := hin
      obtain ⟨hl, hr⟩ := hvisited row hrow
      obtain ⟨hlease, hdead⟩ := hq rfl row hrow rfl
      rw [hl, hr, judge_eq (htaken row hrow), hlease, hdead]
      simp only [Bool.false_eq_true, if_false]
      split_ifs
      · exact ⟨rfl, rfl⟩
      · exact ⟨rfl, rfl⟩
    · rw [hleases, hdlv]
      refine hscan.others i q fun hi v hv hvq => hin ⟨hi, ?_⟩
      rw [hplan] at hv
      obtain ⟨row, hrow, rfl⟩ := List.mem_map.mp hv
      exact ⟨row, hrow, hvq⟩
  · rw [hscan.done, hplan]
    refine or_congr Iff.rfl ⟨fun ⟨v, hv, hvq, hf⟩ => ?_, fun ⟨row, hrow, hq, hf⟩ => ?_⟩
    · obtain ⟨row, hrow, rfl⟩ := List.mem_map.mp hv
      exact ⟨row, hrow, hvq, (finishes_judged (htaken row hrow)).mp hf⟩
    · exact ⟨_, List.mem_map.mpr ⟨row, hrow, rfl⟩, hq, (finishes_judged (htaken row hrow)).mpr hf⟩
  · rw [withCursor_get hscan hc, if_neg hi]
  · obtain ⟨dlv, hkv⟩ := hscan.kv
    rw [hplan, copies_eq htaken] at hkv
    rw [hmsg, hseq, hkv]
    exact ⟨rfl, rfl⟩

/-- Every call of `lease_next` that returns keeps its contract. -/
theorem lease_next_keeps_contract {subId topicId : Nat} {maxMessages nowMs secs : Int}
    (hmax : 0 < maxMessages)
    (h : leaseNext subId topicId maxMessages nowMs secs s = .ok out t) :
    ∃ c, s.kv.cursors.get subId = some c ∧
      LeaseContract (leaseArgs s subId topicId maxMessages nowMs secs) s c out t := by
  cases hc : s.kv.cursors.get subId with
  | none =>
    obtain ⟨e, he⟩ := leaseNext_no_cursor topicId nowMs secs hmax hc
    rw [he] at h
    cases h
  | some c =>
    refine ⟨c, rfl, ?_⟩
    have hexact := (ensures_leaseNext_exact topicId nowMs secs hmax hc).of_ok h
    have hcon := hexact.contract hc
    exact ⟨hcon.returned, hcon.ascending, hcon.leased, hcon.removed, hcon.others, hcon.done, hcon.cursors, hcon.appended⟩

/-- The state of the runs on concrete inputs once more, with the message delivered as
attempt `n`, due at time `0`. -/
def delivered (n : Nat) : Engine :=
  let s := Run.final step start (setup {})
  { s with kv := { s.kv with dlv := s.kv.dlv.insert ⟨2, 1⟩ ⟨0, n, n⟩ } }

/-- The seqs and the attempts of what a call returns. -/
def attemptsOf (r : EStateM.Result Error Engine (List Delivered)) : List (Nat × Nat) :=
  match r with
  | .ok out _ => out.map fun d => (d.seq, d.deliveryAttempt)
  | .error _ _ => []

theorem lease_next_keeps_contract_twice : ∃ out t c,
    leaseNext 2 1 10 5 10 (delivered 1) = .ok out t ∧
      out.map (fun d => (d.seq, d.deliveryAttempt)) = [(1, 2)] ∧
      LeaseContract (leaseArgs (delivered 1) 2 1 10 5 10) (delivered 1) c out t := by
  have hout : attemptsOf (leaseNext 2 1 10 5 10 (delivered 1)) = [(1, 2)] := by decide +kernel
  cases hr : leaseNext 2 1 10 5 10 (delivered 1) with
  | ok out t =>
    rw [hr] at hout
    obtain ⟨c, _, hcon⟩ := lease_next_keeps_contract (by decide) hr
    exact ⟨out, t, c, rfl, hout, hcon⟩
  | error e t =>
    rw [hr] at hout
    cases hout

/-- The count of attempts ends at `u32::MAX`. -/
theorem lease_next_saturates : ¬ ∀ (s : Engine) (subId topicId : Nat) (maxMessages nowMs secs : Int)
    (out : List Delivered) (t : Engine), s.kv.Healthy → 0 < maxMessages →
      leaseNext subId topicId maxMessages nowMs secs s = .ok out t →
      ∀ d ∈ out, d.deliveryAttempt = s.priorAttempts subId d.seq + 1 := by
  intro h
  have hout : attemptsOf (leaseNext 2 1 10 5 10 (delivered u32Max)) = [(1, u32Max)] := by
    decide +kernel
  have hprior : (delivered u32Max).priorAttempts 2 1 = u32Max := by decide +kernel
  have hh : (delivered u32Max).kv.Healthy := fun k => (wellFormed_final (setup {})).healthy k
  cases hr : leaseNext 2 1 10 5 10 (delivered u32Max) with
  | ok out t =>
    rw [hr] at hout
    have hmem : (1, u32Max) ∈ out.map fun d => (d.seq, d.deliveryAttempt) := by
      change out.map _ = _ at hout
      rw [hout]
      exact List.mem_cons_self
    obtain ⟨d, hd, heq⟩ := List.mem_map.mp hmem
    have hnext := h _ 2 1 10 5 10 out t hh (by decide) hr d hd
    simp only [Prod.mk.injEq] at heq
    rw [heq.1, heq.2, hprior] at hnext
    omega
  | error e t =>
    rw [hr] at hout
    cases hout

end Contract

end OpenPubusb
