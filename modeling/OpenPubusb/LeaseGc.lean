import OpenPubusb.LeaseIndex

/-! Garbage collection of leases. A sweep takes the overdue leases of all
subscriptions out of the table and puts the foreign ones back as due now, so it
touches only its own subscription when no foreign lease is overdue. -/

namespace OpenPubusb

/-- The lease is overdue by the grace period at `nowMs`. -/
def Lease.overdue (l : Lease) (nowMs graceMs : Int) : Bool := l.deadlineMs ≤ nowMs - graceMs

/-- The number of overdue leases of the subscription. -/
def overdueCount (t : LeaseTable) (subId : Nat) (nowMs graceMs : Int) : Nat :=
  (t.seqsOf subId).countP fun q => (t.get subId q).any (·.overdue nowMs graceMs)

/-- What a sweep of `swept` subscriptions is to do: it drops their overdue leases and
returns how many these are. -/
structure Drops (swept : List Nat) (nowMs graceMs : Int) (s : Engine) (n : Nat) (t : LeaseTable) :
    Prop where
  leases : ∀ i q, t.get i q =
    (s.leases.get i q).filter fun l => ¬ (i ∈ swept ∧ l.overdue nowMs graceMs)
  count : n = (swept.map fun i => overdueCount s.leases i nowMs graceMs).sum

/-- One sweep touches the leases of its own subscription only. -/
def SweepsOwn (s : Engine) (subId : Nat) (nowMs graceMs : Int) : Prop :=
  ∃ n t, sweepExpired subId nowMs graceMs s = .ok n { s with leases := t } ∧
    Drops [subId] nowMs graceMs s n t

/-- The sweeps of a maintenance pass, one subscription after another. -/
def sweepAll (nowMs graceMs : Int) : List Nat → EngineM Nat
  | [] => pure 0
  | subId :: subIds => do
    let n ← sweepExpired subId nowMs graceMs
    let m ← sweepAll nowMs graceMs subIds
    pure (n + m)

/-- No foreign lease is overdue, unless its deadline is `nowMs` itself; and the limit
of the sweep does not saturate onto a lease of its own. -/
def OnlyOwnOverdue (t : LeaseTable) (subId : Nat) (nowMs graceMs : Int) : Prop :=
  ∀ i q l, t.get i q = some l → l.deadlineMs ≤ satSubI64 nowMs graceMs →
    if i = subId then l.overdue nowMs graceMs else l.deadlineMs = nowMs

section Expired

variable {t : LeaseTable}

theorem expireKeys_sublist (t : LeaseTable) (ks : List DeadlineKey) :
    ((t.expireKeys ks).2.map fun e => (e.subId, e.seq)).Sublist
      (ks.map fun k => (k.subId, k.seq)) := by
  induction ks generalizing t with
  | nil => exact List.Sublist.refl _
  | cons k ks ih =>
    rw [LeaseTable.expireKeys, List.map_cons]
    cases ht : LeaseTable.get { t with byDeadline := t.byDeadline.erase k } k.subId k.seq with
    | none => exact (ih _).cons _
    | some l => exact (ih _).cons_cons _

theorem expired_nodup (h : t.Coherent) (limitMs : Int) :
    ((t.expireUpTo limitMs).2.map fun e => (e.subId, e.seq)).Nodup := by
  refine (expireKeys_sublist t _).nodup ?_
  refine List.Nodup.map_on (fun k hk k' hk' he => ?_) (t.byDeadline.keys_nodup.filter _)
  obtain ⟨d, s, q⟩ := k
  obtain ⟨d', s', q'⟩ := k'
  simp only [Prod.mk.injEq] at he
  obtain ⟨rfl, rfl⟩ := he
  obtain ⟨_, hv⟩ := SortedMap.mem_keys.mp (List.mem_filter.mp hk).1
  obtain ⟨_, hv'⟩ := SortedMap.mem_keys.mp (List.mem_filter.mp hk').1
  obtain ⟨l, hl, hd⟩ := h.indexed.mp hv
  obtain ⟨l', hl', hd'⟩ := h.indexed.mp hv'
  rw [hl, Option.some.injEq] at hl'
  rw [← hd, ← hd', hl']

theorem seqsOf_nodup (t : LeaseTable) (subId : Nat) : (t.seqsOf subId).Nodup := by
  refine List.Nodup.map_on (fun k hk k' hk' he => ?_) (t.byKey.keys_nodup.filter _)
  have hid := (List.mem_filter.mp hk).2
  have hid' := (List.mem_filter.mp hk').2
  simp only [decide_eq_true_eq] at hid hid'
  obtain ⟨i, q⟩ := k
  obtain ⟨i', q'⟩ := k'
  simp only [RowKey.mk.injEq]
  exact ⟨hid.trans hid'.symm, he⟩

/-- The number a sweep returns: the leases of the subscription due by the limit. -/
theorem countP_expired (h : t.Coherent) (subId : Nat) (limitMs : Int) :
    (t.expireUpTo limitMs).2.countP (fun e => e.subId = subId) =
      (t.seqsOf subId).countP fun q => (t.get subId q).any fun l => l.deadlineMs ≤ limitMs := by
  obtain ⟨_, _, he⟩ := LeaseTable.expireUpTo_spec h limitMs
  rw [List.countP_eq_length_filter, List.countP_eq_length_filter, ← List.length_map ExpiredLease.seq]
  refine List.Perm.length_eq ((List.perm_ext_iff_of_nodup ?_ ?_).mpr fun q => ?_)
  · refine List.Nodup.map_on (fun e hm e' hm' hseq => ?_)
      ((List.Nodup.of_map _ (expired_nodup h limitMs)).filter _)
    obtain ⟨hmem, hsub⟩ := List.mem_filter.mp hm
    obtain ⟨hmem', hsub'⟩ := List.mem_filter.mp hm'
    simp only [decide_eq_true_eq] at hsub hsub'
    refine List.inj_on_of_nodup_map (expired_nodup h limitMs) hmem hmem' ?_
    simp only [Prod.mk.injEq]
    exact ⟨hsub.trans hsub'.symm, hseq⟩
  · exact (seqsOf_nodup t subId).filter _
  · simp only [List.mem_map, List.mem_filter, decide_eq_true_eq, LeaseTable.mem_seqsOf]
    constructor
    · rintro ⟨e, ⟨hm, hs⟩, hq⟩
      obtain ⟨l, hl, hd, _⟩ := (he e).mp hm
      rw [hs, hq] at hl
      refine ⟨⟨l, hl⟩, ?_⟩
      rw [hl, Option.any_some]
      exact decide_eq_true hd
    · rintro ⟨⟨l, hl⟩, hd⟩
      rw [hl, Option.any_some] at hd
      exact ⟨⟨subId, q, l.attempts, l.generation⟩,
        ⟨(he _).mpr ⟨l, hl, of_decide_eq_true hd, rfl, rfl⟩, rfl⟩, rfl⟩

end Expired

theorem sweepExpired_eq (s : Engine) (subId : Nat) (nowMs graceMs : Int) :
    sweepExpired subId nowMs graceMs s =
      .ok ((s.leases.expireUpTo (satSubI64 nowMs graceMs)).2.countP fun e => e.subId = subId)
        { s with leases := sweepLeases s.leases subId nowMs graceMs } := rfl

section Sweep

variable {s : Engine} {subId : Nat} {nowMs graceMs : Int}

theorem sub_le_satSubI64 (hnow : nowMs ≤ i64Max) (hgrace : 0 ≤ graceMs) :
    nowMs - graceMs ≤ satSubI64 nowMs graceMs :=
  le_max_of_le_right (le_min (by omega) le_rfl)

theorem overdueCount_congr {t t' : LeaseTable} (i : Nat) (h : ∀ q, t'.get i q = t.get i q) :
    overdueCount t' i nowMs graceMs = overdueCount t i nowMs graceMs := by
  have hperm : (t'.seqsOf i).Perm (t.seqsOf i) := by
    refine (List.perm_ext_iff_of_nodup (seqsOf_nodup t' i) (seqsOf_nodup t i)).mpr fun q => ?_
    rw [LeaseTable.mem_seqsOf, LeaseTable.mem_seqsOf, h q]
  unfold overdueCount
  rw [hperm.countP_eq]
  exact List.countP_congr fun q _ => by rw [h q]

theorem SweepsOwn.onlyOwn (hc : s.leases.Coherent) (h : SweepsOwn s subId nowMs graceMs) :
    OnlyOwnOverdue s.leases subId nowMs graceMs := by
  obtain ⟨n, t, hrun, hdrops⟩ := h
  rw [sweepExpired_eq] at hrun
  simp only [EStateM.Result.ok.injEq, Engine.mk.injEq, true_and, and_true] at hrun
  obtain ⟨_, rfl⟩ := hrun
  intro i q l hl hd
  have hget := hdrops.leases i q
  rw [get_sweepLeases hc, hl, Option.bind_some, if_neg (not_lt.mpr hd)] at hget
  by_cases hi : i = subId
  · rw [if_pos hi] at hget ⊢
    by_contra hno
    rw [Option.filter_some_pos (by simp [hno])] at hget
    cases hget
  · rw [if_neg hi] at hget ⊢
    rw [Option.filter_some_pos (by simp [hi]), Option.some.injEq] at hget
    exact (congrArg Lease.deadlineMs hget).symm

theorem OnlyOwnOverdue.drops (hc : s.leases.Coherent) (hnow : nowMs ≤ i64Max)
    (hgrace : 0 ≤ graceMs) (h : OnlyOwnOverdue s.leases subId nowMs graceMs) :
    Drops [subId] nowMs graceMs s
      ((s.leases.expireUpTo (satSubI64 nowMs graceMs)).2.countP fun e => e.subId = subId)
      (sweepLeases s.leases subId nowMs graceMs) := by
  have hsat := sub_le_satSubI64 hnow hgrace
  constructor
  · intro i q
    rw [get_sweepLeases hc]
    cases hl : s.leases.get i q with
    | none => rfl
    | some l =>
      rw [Option.bind_some]
      by_cases hd : l.deadlineMs ≤ satSubI64 nowMs graceMs
      · have hown := h i q l hl hd
        rw [if_neg (not_lt.mpr hd)]
        by_cases hi : i = subId
        · rw [if_pos hi] at hown ⊢
          rw [Option.filter_some_neg (by simp [hi, hown])]
        · rw [if_neg hi] at hown ⊢
          rw [Option.filter_some_pos (by simp [hi]), ← hown]
      · rw [if_pos (not_le.mp hd), Option.filter_some_pos]
        have hno : l.overdue nowMs graceMs = false := by
          rw [Lease.overdue, decide_eq_false_iff_not]
          omega
        simp [hno]
  · rw [countP_expired hc, List.map_singleton, List.sum_singleton, overdueCount]
    refine List.countP_congr fun q _ => ?_
    cases hl : s.leases.get subId q with
    | none => rfl
    | some l =>
      simp only [Option.any_some, Lease.overdue, decide_eq_true_eq]
      refine ⟨fun hd => ?_, fun hd => hd.trans hsat⟩
      have hown := h subId q l hl hd
      rw [if_pos rfl, Lease.overdue, decide_eq_true_eq] at hown
      exact hown

/-- A pass over several subscriptions drops each of their overdue leases once. -/
theorem sweepAll_drops (hnow : nowMs ≤ i64Max) (hgrace : 0 ≤ graceMs) {subIds : List Nat}
    (hnodup : subIds.Nodup) (hc : s.leases.Coherent)
    (h : ∀ i ∈ subIds, OnlyOwnOverdue s.leases i nowMs graceMs) :
    ∃ n t, sweepAll nowMs graceMs subIds s = .ok n { s with leases := t } ∧
      Drops subIds nowMs graceMs s n t := by
  induction subIds generalizing s with
  | nil =>
    refine ⟨0, s.leases, rfl, fun i q => ?_, rfl⟩
    cases s.leases.get i q with
    | none => rfl
    | some l => rw [Option.filter_some_pos (by simp)]
  | cons i rest ih =>
    obtain ⟨hi, hrest⟩ := List.nodup_cons.mp hnodup
    have hfirst := (h i List.mem_cons_self).drops hc hnow hgrace
    have hsome : ∀ j q l, (sweepLeases s.leases i nowMs graceMs).get j q = some l →
        s.leases.get j q = some l := by
      intro j q l hl
      rw [hfirst.leases] at hl
      exact (Option.filter_eq_some_iff.mp hl).1
    obtain ⟨n, t, hrun, hdrops⟩ := ih (s := { s with leases := sweepLeases s.leases i nowMs graceMs })
      hrest (coherent_sweepLeases hc ..)
      (fun j hj k q l hl hd => h j (List.mem_cons_of_mem _ hj) k q l (hsome k q l hl) hd)
    refine ⟨(s.leases.expireUpTo (satSubI64 nowMs graceMs)).2.countP (fun e => e.subId = i) + n, t,
      ?_, fun j q => ?_, ?_⟩
    · simp only [sweepAll, bind, EStateM.bind, sweepExpired_eq, hrun]
      rfl
    · rw [hdrops.leases]
      change ((sweepLeases s.leases i nowMs graceMs).get j q).filter _ = _
      rw [hfirst.leases]
      cases s.leases.get j q with
      | none => rfl
      | some l =>
        by_cases ho : l.overdue nowMs graceMs = true
        · by_cases hj : j = i
          · simp [ho, hj, Option.filter]
          · simp [ho, hj, Option.filter]
        · simp [ho, Option.filter]
    · rw [List.map_cons, List.sum_cons, hdrops.count, hfirst.count, List.map_singleton,
        List.sum_singleton]
      refine congrArg _ (congrArg List.sum (List.map_congr_left fun j hj => ?_))
      refine overdueCount_congr j fun q => ?_
      have hne : j ≠ i := fun he => hi (he ▸ hj)
      change (sweepLeases s.leases i nowMs graceMs).get j q = _
      rw [hfirst.leases]
      cases s.leases.get j q with
      | none => rfl
      | some l => rw [Option.filter_some_pos (by simp [hne])]

/-- A sweep touches its own leases only exactly when no foreign lease is overdue, and a
pass of such sweeps drops each overdue lease once. -/
theorem gc_touches_own_iff (hc : s.leases.Coherent) (hnow : nowMs ≤ i64Max) (hgrace : 0 ≤ graceMs) :
    (∀ subId, SweepsOwn s subId nowMs graceMs ↔ OnlyOwnOverdue s.leases subId nowMs graceMs) ∧
      ∀ subIds : List Nat, subIds.Nodup →
        (∀ i ∈ subIds, OnlyOwnOverdue s.leases i nowMs graceMs) →
        ∃ n t, sweepAll nowMs graceMs subIds s = .ok n { s with leases := t } ∧
          Drops subIds nowMs graceMs s n t := by
  refine ⟨fun subId => ⟨fun h => h.onlyOwn hc, fun h => ?_⟩, fun subIds hnodup h => ?_⟩
  · exact ⟨_, _, sweepExpired_eq s subId nowMs graceMs, h.drops hc hnow hgrace⟩
  · exact sweepAll_drops hnow hgrace hnodup hc h

end Sweep

/-- A lease of subscription `2` due at `1000`, and one of `3` due at `9000`. -/
def twoLeases : Engine :=
  { Engine.new .empty [] with
    leases := (LeaseTable.empty.insert 2 1 1000 1 1).insert 3 1 9000 1 1 }

theorem twoLeases_coherent : twoLeases.leases.Coherent :=
  (LeaseTable.coherent_empty.insert 2 1 1000 1 1).insert 3 1 9000 1 1

theorem twoLeases_get {i q : Nat} {l : Lease} (h : twoLeases.leases.get i q = some l) :
    l = ⟨2, 1, 1000, 1, 1⟩ ∧ i = 2 ∨ l = ⟨3, 1, 9000, 1, 1⟩ ∧ i = 3 := by
  simp only [twoLeases, LeaseTable.get_insert, LeaseTable.get_empty] at h
  split_ifs at h with h3 h2
  · exact Or.inr ⟨(Option.some.inj h).symm, h3.1⟩
  · exact Or.inl ⟨(Option.some.inj h).symm, h2.1⟩

theorem gc_touches_own_at_5000 :
    OnlyOwnOverdue twoLeases.leases 2 5000 1000 ∧ SweepsOwn twoLeases 2 5000 1000 := by
  have honly : OnlyOwnOverdue twoLeases.leases 2 5000 1000 := by
    intro i q l hl hd
    rcases twoLeases_get hl with ⟨rfl, rfl⟩ | ⟨rfl, rfl⟩
    · decide
    · exact absurd hd (by decide)
  exact ⟨honly, ((gc_touches_own_iff twoLeases_coherent (by decide) (by decide)).1 2).mpr honly⟩

/-- The sweep of `2` makes the overdue lease of `3` due now, and the pass over both
subscriptions drops one lease of two. -/
theorem gc_postpones_foreign :
    ¬ SweepsOwn twoLeases 2 100000 1000 ∧
      (sweepLeases twoLeases.leases 2 100000 1000).get 3 1 = some ⟨3, 1, 100000, 1, 1⟩ ∧
      (match sweepAll 100000 1000 [2, 3] twoLeases with
        | .ok n _ => n
        | .error _ _ => 0) = 1 := by
  refine ⟨fun h => ?_, by decide, by decide⟩
  have honly := h.onlyOwn twoLeases_coherent 3 1 ⟨3, 1, 9000, 1, 1⟩ (by decide) (by decide)
  exact absurd honly (by decide)

end OpenPubusb
