import OpenPubusb.Engine

/-! The two indexes of the lease table describe the same leases, and what the
table operations of the sweep, the seek and the recovery do to a lease. -/

namespace OpenPubusb

namespace LeaseTable

structure Coherent (t : LeaseTable) : Prop where
  keyed : ∀ {s q : Nat} {l : Lease}, t.get s q = some l → l.subId = s ∧ l.seq = q
  indexed : ∀ {d : Int} {s q : Nat},
    t.byDeadline.get ⟨d, s, q⟩ = some () ↔ ∃ l, t.get s q = some l ∧ l.deadlineMs = d

variable {t : LeaseTable}

theorem coherent_empty : empty.Coherent where
  keyed h := by simp [get_empty] at h
  indexed {d s q} := by
    constructor
    · intro h
      cases h
    · rintro ⟨_, h, _⟩
      cases h

/-- Without its current lease, `(s, q)` has no entry left in the deadline index. -/
theorem Coherent.unindexed (h : t.Coherent) {s q : Nat} {l : Lease} (hl : t.get s q = some l)
    (d : Int) (s' q' : Nat) :
    (t.byDeadline.erase ⟨l.deadlineMs, s, q⟩).get ⟨d, s', q'⟩ =
      if s' = s ∧ q' = q then none else t.byDeadline.get ⟨d, s', q'⟩ := by
  rw [SortedMap.get_erase]
  by_cases he : s' = s ∧ q' = q
  · obtain ⟨rfl, rfl⟩ := he
    by_cases hd : d = l.deadlineMs
    · simp [hd]
    · have hn : t.byDeadline.get ⟨d, s', q'⟩ ≠ some () := by
        rw [Ne, h.indexed]
        rintro ⟨l', hl', hd'⟩
        rw [hl, Option.some.injEq] at hl'
        exact hd (hl' ▸ hd'.symm)
      simpa [hd] using Option.eq_none_iff_forall_ne_some.mpr (fun _ => hn)
  · have hk : (⟨d, s', q'⟩ : DeadlineKey) ≠ ⟨l.deadlineMs, s, q⟩ := fun hk => by
      simp only [DeadlineKey.mk.injEq] at hk
      exact he hk.2
    simp [hk, he]

theorem Coherent.absent (h : t.Coherent) {s q : Nat} (hl : t.get s q = none) (d : Int) :
    t.byDeadline.get ⟨d, s, q⟩ = none := by
  have hn : t.byDeadline.get ⟨d, s, q⟩ ≠ some () := by
    rw [Ne, h.indexed, hl]
    rintro ⟨_, hl', _⟩
    cases hl'
  exact Option.eq_none_iff_forall_ne_some.mpr (fun _ => hn)

/-- A table whose only new lease at `(s, q)` is `l`, indexed at its deadline. -/
theorem Coherent.of_update (h : t.Coherent) {t' : LeaseTable} {s q : Nat} {l : Lease}
    (hkey : l.subId = s ∧ l.seq = q)
    (hget : ∀ s' q', t'.get s' q' = if s' = s ∧ q' = q then some l else t.get s' q')
    (hidx : ∀ d s' q', t'.byDeadline.get ⟨d, s', q'⟩ =
      if s' = s ∧ q' = q then (if d = l.deadlineMs then some () else none)
      else t.byDeadline.get ⟨d, s', q'⟩) : t'.Coherent where
  keyed {s' q' l'} hl' := by
    rw [hget] at hl'
    split_ifs at hl' with he
    · rw [Option.some.injEq] at hl'
      rw [he.1, he.2, ← hl']
      exact hkey
    · exact h.keyed hl'
  indexed {d s' q'} := by
    rw [hidx, hget]
    split_ifs with he hd
    · simp [hd]
    · simp [Ne.symm hd]
    · exact h.indexed

theorem Coherent.insert (h : t.Coherent) (s q : Nat) (d : Int) (a g : Nat) :
    (t.insert s q d a g).Coherent := by
  refine h.of_update (l := ⟨s, q, d, a, g⟩) ⟨rfl, rfl⟩ (fun s' q' => get_insert ..) ?_
  intro d' s' q'
  have hk : (⟨d', s', q'⟩ : DeadlineKey) = ⟨d, s, q⟩ ↔ (s' = s ∧ q' = q) ∧ d' = d := by
    simp only [DeadlineKey.mk.injEq]
    tauto
  unfold LeaseTable.insert
  cases hl : t.get s q with
  | none =>
    simp only [SortedMap.get_insert, hk]
    by_cases he : s' = s ∧ q' = q
    · obtain ⟨rfl, rfl⟩ := he
      simp [h.absent hl]
    · simp [he]
  | some l =>
    simp only [SortedMap.get_insert, hk, h.unindexed hl]
    by_cases he : s' = s ∧ q' = q
    · simp [he]
    · simp [he]

theorem Coherent.reschedule (h : t.Coherent) {s q : Nat} {l : Lease} (hl : t.get s q = some l)
    (d : Int) : (t.reschedule s q l d).Coherent := by
  have hkey : l.subId = s ∧ l.seq = q := h.keyed hl
  refine h.of_update (l := { l with deadlineMs := d }) hkey
    (fun s' q' => get_reschedule ..) ?_
  intro d' s' q'
  have hk : (⟨d', s', q'⟩ : DeadlineKey) = ⟨d, s, q⟩ ↔ (s' = s ∧ q' = q) ∧ d' = d := by
    simp only [DeadlineKey.mk.injEq]
    tauto
  simp only [LeaseTable.reschedule, SortedMap.get_insert, hk, h.unindexed hl]
  by_cases he : s' = s ∧ q' = q
  · simp [he]
  · simp [he]

theorem Coherent.remove (h : t.Coherent) (s q : Nat) : (t.remove s q).Coherent := by
  unfold LeaseTable.remove
  cases hl : t.get s q with
  | none => exact h
  | some l =>
    constructor
    · intro s' q' l' hl'
      simp only [get, SortedMap.get_erase] at hl'
      split_ifs at hl'
      exact h.keyed hl'
    · intro d s' q'
      simp only [h.unindexed hl, get, SortedMap.get_erase, RowKey.mk.injEq]
      split_ifs
      · simp
      · exact h.indexed

theorem Coherent.ack (h : t.Coherent) (ackId : String) : (t.ack ackId).1.Coherent := by
  rcases t.resolveAck_cases ackId (fun s q l => (t.remove s q, .applied l)) with
    ⟨s, q, l, _, _, he⟩ | ⟨_, he, _⟩
  · rw [LeaseTable.ack, he]
    exact h.remove s q
  · rw [LeaseTable.ack, he]
    exact h

theorem Coherent.extend (h : t.Coherent) (ackId : String) (nowMs secs : Int) :
    (t.extend ackId nowMs secs).1.Coherent := by
  rcases t.resolveAck_cases ackId (fun s q l => (t.reschedule s q l (extendedDeadline nowMs secs),
      .applied { l with deadlineMs := extendedDeadline nowMs secs })) with
    ⟨s, q, l, hl, _, he⟩ | ⟨_, he, _⟩
  · rw [LeaseTable.extend, he]
    exact h.reschedule hl _
  · rw [LeaseTable.extend, he]
    exact h

theorem coherent_removeAll (h : t.Coherent) (s : Nat) (qs : List Nat) :
    (t.removeAll s qs).Coherent := by
  induction qs generalizing t with
  | nil => exact h
  | cons q qs ih => exact ih (h.remove s q)

theorem get_removeAll (t : LeaseTable) (s : Nat) (qs : List Nat) (s' q' : Nat) :
    (t.removeAll s qs).get s' q' = if s' = s ∧ q' ∈ qs then none else t.get s' q' := by
  induction qs generalizing t with
  | nil => simp [removeAll]
  | cons q qs ih =>
    rw [removeAll, ih, get_remove]
    by_cases hs : s' = s
    · by_cases hq : q' ∈ qs
      · simp [hs, hq]
      · simp [hs, hq]
    · simp [hs]

theorem mem_seqsOf {s q : Nat} : q ∈ t.seqsOf s ↔ ∃ l, t.get s q = some l := by
  simp only [seqsOf, List.mem_map, List.mem_filter, SortedMap.mem_keys, decide_eq_true_eq, get]
  constructor
  · rintro ⟨⟨s', q'⟩, ⟨hl, hs⟩, hq⟩
    subst hs hq
    exact hl
  · intro hl
    exact ⟨⟨s, q⟩, ⟨hl, rfl⟩, rfl⟩

theorem get_removeAllForSubscription (t : LeaseTable) (s s' q : Nat) :
    (t.removeAllForSubscription s).1.get s' q = if s' = s then none else t.get s' q := by
  rw [removeAllForSubscription, get_removeAll]
  by_cases hs : s' = s
  · subst hs
    by_cases hm : q ∈ t.seqsOf s'
    · simp [hm]
    · cases hl : t.get s' q with
      | none => simp
      | some l => exact absurd (mem_seqsOf.mpr ⟨l, hl⟩) hm
  · simp [hs]

/-- The lease the deadline key `k` stands for is taken out of both indexes. -/
theorem Coherent.expireKey (h : t.Coherent) {k : DeadlineKey}
    (hk : t.byDeadline.get k = some ()) :
    ∃ l, t.get k.subId k.seq = some l ∧ l.deadlineMs = k.deadlineMs ∧
      ⟨t.byDeadline.erase k, t.byKey.erase ⟨k.subId, k.seq⟩⟩ = t.remove k.subId k.seq := by
  obtain ⟨l, hl, hd⟩ := h.indexed.mp hk
  refine ⟨l, hl, hd, ?_⟩
  simp only [LeaseTable.remove, hl, hd]

theorem expireKeys_spec (h : t.Coherent) (ks : List DeadlineKey) (hnd : ks.Nodup)
    (hks : ∀ k ∈ ks, t.byDeadline.get k = some ()) :
    (t.expireKeys ks).1.Coherent ∧
    (∀ s q, (t.expireKeys ks).1.get s q =
      (t.get s q).filter (fun l => (⟨l.deadlineMs, s, q⟩ : DeadlineKey) ∉ ks)) ∧
    (∀ e, e ∈ (t.expireKeys ks).2 ↔ ∃ l, t.get e.subId e.seq = some l ∧
      (⟨l.deadlineMs, e.subId, e.seq⟩ : DeadlineKey) ∈ ks ∧
      e.attempts = l.attempts ∧ e.generation = l.generation) := by
  induction ks generalizing t with
  | nil =>
    refine ⟨h, fun s q => ?_, fun e => by simp [expireKeys]⟩
    rw [expireKeys]
    cases t.get s q <;> simp [Option.filter]
  | cons k ks ih =>
    obtain ⟨hnk, hnd⟩ := List.nodup_cons.mp hnd
    obtain ⟨l, hl, hd, hrem⟩ := h.expireKey (hks k List.mem_cons_self)
    have hstep : t.expireKeys (k :: ks) = ((t.remove k.subId k.seq).expireKeys ks |>.1,
        ⟨k.subId, k.seq, l.attempts, l.generation⟩ ::
          ((t.remove k.subId k.seq).expireKeys ks).2) := by
      have hl' : ({ t with byDeadline := t.byDeadline.erase k } : LeaseTable).get k.subId k.seq =
          some l := hl
      simp only [expireKeys, hl', hrem]
    have hks' : ∀ k' ∈ ks, (t.remove k.subId k.seq).byDeadline.get k' = some () := by
      intro k' hk'
      have hne : k' ≠ k := fun he => hnk (he ▸ hk')
      rw [← hrem, SortedMap.get_erase_ne _ hne]
      exact hks k' (List.mem_cons_of_mem _ hk')
    obtain ⟨hc, hg, he⟩ := ih (h.remove k.subId k.seq) hnd hks'
    have hkeq : ∀ s q, s = k.subId ∧ q = k.seq →
        (⟨l.deadlineMs, s, q⟩ : DeadlineKey) = k := by
      rintro s q ⟨rfl, rfl⟩
      rw [hd]
    have hkne : ∀ {s q : Nat} {d : Int}, ¬ (s = k.subId ∧ q = k.seq) →
        (⟨d, s, q⟩ : DeadlineKey) ≠ k := by
      rintro s q d hn rfl
      exact hn ⟨rfl, rfl⟩
    rw [hstep]
    refine ⟨hc, fun s q => ?_, fun e => ?_⟩
    · rw [hg, get_remove]
      by_cases hsq : s = k.subId ∧ q = k.seq
      · rw [if_pos hsq, hsq.1, hsq.2, hl]
        have hm : (⟨l.deadlineMs, k.subId, k.seq⟩ : DeadlineKey) ∈ k :: ks := by
          rw [hkeq _ _ ⟨rfl, rfl⟩]
          exact List.mem_cons_self
        simp [Option.filter, hm]
      · rw [if_neg hsq]
        cases t.get s q with
        | none => rfl
        | some l' => simp [Option.filter, List.mem_cons, hkne hsq]
    · rw [List.mem_cons, he, get_remove]
      by_cases hsq : e.subId = k.subId ∧ e.seq = k.seq
      · rw [if_pos hsq, hsq.1, hsq.2, hl]
        obtain ⟨es, eq, ea, eg⟩ := e
        obtain ⟨rfl, rfl⟩ : es = k.subId ∧ eq = k.seq := hsq
        have hm := hkeq k.subId k.seq ⟨rfl, rfl⟩
        simp [hm]
      · rw [if_neg hsq]
        have hne : e ≠ ⟨k.subId, k.seq, l.attempts, l.generation⟩ := by
          rintro rfl
          exact hsq ⟨rfl, rfl⟩
        simp [hne, List.mem_cons, hkne hsq]

theorem expireUpTo_spec (h : t.Coherent) (nowMs : Int) :
    (t.expireUpTo nowMs).1.Coherent ∧
    (∀ s q, (t.expireUpTo nowMs).1.get s q = (t.get s q).filter (fun l => nowMs < l.deadlineMs)) ∧
    (∀ e, e ∈ (t.expireUpTo nowMs).2 ↔ ∃ l, t.get e.subId e.seq = some l ∧
      l.deadlineMs ≤ nowMs ∧ e.attempts = l.attempts ∧ e.generation = l.generation) := by
  have hmem : ∀ {s q : Nat} {l : Lease}, t.get s q = some l →
      ((⟨l.deadlineMs, s, q⟩ : DeadlineKey) ∈
        t.byDeadline.keys.filter (fun k => k.deadlineMs ≤ nowMs) ↔ l.deadlineMs ≤ nowMs) := by
    intro s q l hl
    rw [List.mem_filter, SortedMap.mem_keys, decide_eq_true_eq]
    exact ⟨And.right, fun hd => ⟨⟨(), h.indexed.mpr ⟨l, hl, rfl⟩⟩, hd⟩⟩
  obtain ⟨hc, hg, he⟩ := expireKeys_spec h
    (t.byDeadline.keys.filter (fun k => k.deadlineMs ≤ nowMs))
    (t.byDeadline.keys_nodup.filter _)
    (fun k hk => SortedMap.mem_keys.mp (List.mem_filter.mp hk).1 |>.elim fun _ hv => hv)
  refine ⟨hc, fun s q => ?_, fun e => ?_⟩
  · rw [expireUpTo, hg]
    cases hl : t.get s q with
    | none => rfl
    | some l => simp only [Option.filter, hmem hl, not_le]
  · rw [expireUpTo, he]
    constructor
    · rintro ⟨l, hl, hk, ha⟩
      exact ⟨l, hl, (hmem hl).mp hk, ha⟩
    · rintro ⟨l, hl, hd, ha⟩
      exact ⟨l, hl, (hmem hl).mpr hd, ha⟩

end LeaseTable

open LeaseTable

theorem coherent_putBack {t : LeaseTable} (h : t.Coherent) (subId : Nat) (nowMs : Int)
    (es : List ExpiredLease) : (putBack t subId nowMs es).Coherent := by
  induction es generalizing t with
  | nil => exact h
  | cons e es ih =>
    rw [putBack, List.foldl_cons]
    split_ifs
    · exact ih h
    · exact ih (h.insert ..)

theorem get_putBack (t : LeaseTable) (subId : Nat) (nowMs : Int) (es : List ExpiredLease)
    {s q a g : Nat} (hes : ∀ e ∈ es, e.subId = s → e.seq = q → e.attempts = a ∧ e.generation = g) :
    (putBack t subId nowMs es).get s q =
      if s ≠ subId ∧ ∃ e ∈ es, e.subId = s ∧ e.seq = q then some ⟨s, q, nowMs, a, g⟩
      else t.get s q := by
  induction es generalizing t with
  | nil => simp [putBack]
  | cons e es ih =>
    have ih' := fun t => ih t (fun e he => hes e (List.mem_cons_of_mem _ he))
    rw [putBack, List.foldl_cons]
    change (putBack _ subId nowMs es).get s q = _
    rw [ih']
    by_cases hs : s = subId
    · by_cases he : e.subId = subId
      · simp [hs, he]
      · simp [hs, he, get_insert, Ne.symm he]
    · by_cases hmem : ∃ e' ∈ es, e'.subId = s ∧ e'.seq = q
      · obtain ⟨e', he', hk⟩ := hmem
        rw [if_pos ⟨hs, e', he', hk⟩, if_pos ⟨hs, e', List.mem_cons_of_mem _ he', hk⟩]
      · rw [if_neg (fun h => hmem h.2)]
        by_cases hk : e.subId = s ∧ e.seq = q
        · obtain ⟨ha, hg⟩ := hes e List.mem_cons_self hk.1 hk.2
          have hne : e.subId ≠ subId := hk.1 ▸ hs
          rw [if_neg hne, get_insert, if_pos ⟨hk.1.symm, hk.2.symm⟩,
            if_pos (⟨hs, e, List.mem_cons_self, hk⟩ :
              s ≠ subId ∧ ∃ e' ∈ e :: es, e'.subId = s ∧ e'.seq = q), hk.1, hk.2, ha, hg]
        · have hnot : ¬ (s ≠ subId ∧ ∃ e' ∈ e :: es, e'.subId = s ∧ e'.seq = q) := by
            rintro ⟨_, e', he', hk'⟩
            rcases List.mem_cons.mp he' with rfl | he'
            · exact hk hk'
            · exact hmem ⟨e', he', hk'⟩
          rw [if_neg hnot]
          split_ifs with he
          · rfl
          · rw [get_insert, if_neg (fun h => hk ⟨h.1.symm, h.2.symm⟩)]

/-- A sweep drops the subscription's own expired leases and makes the expired
leases of the others due now. -/
theorem get_sweepLeases {t : LeaseTable} (h : t.Coherent) (subId : Nat) (nowMs graceMs : Int)
    (s q : Nat) :
    (sweepLeases t subId nowMs graceMs).get s q =
      (t.get s q).bind (fun l =>
        if satSubI64 nowMs graceMs < l.deadlineMs then some l
        else if s = subId then none else some { l with deadlineMs := nowMs }) := by
  obtain ⟨_, hg, he⟩ := expireUpTo_spec h (satSubI64 nowMs graceMs)
  cases hl : t.get s q with
  | none =>
    rw [sweepLeases, get_putBack (a := 0) (g := 0), if_neg, hg, hl]
    · rfl
    · rintro ⟨_, e, hm, hs, hq⟩
      obtain ⟨l, hl', _⟩ := (he e).mp hm
      rw [hs, hq, hl] at hl'
      cases hl'
    · intro e hm hs hq
      obtain ⟨l, hl', _⟩ := (he e).mp hm
      rw [hs, hq, hl] at hl'
      cases hl'
  | some l =>
    have hkey := h.keyed hl
    rw [sweepLeases, get_putBack (a := l.attempts) (g := l.generation), hg, hl]
    · have hiff : (∃ e ∈ (t.expireUpTo (satSubI64 nowMs graceMs)).2, e.subId = s ∧ e.seq = q) ↔
          l.deadlineMs ≤ satSubI64 nowMs graceMs := by
        constructor
        · rintro ⟨e, hm, hs, hq⟩
          obtain ⟨l', hl', hd, _⟩ := (he e).mp hm
          rw [hs, hq, hl, Option.some.injEq] at hl'
          exact hl' ▸ hd
        · intro hd
          exact ⟨⟨s, q, l.attempts, l.generation⟩, (he _).mpr ⟨l, hl, hd, rfl, rfl⟩, rfl, rfl⟩
      rw [Option.bind_some]
      simp only [hiff]
      obtain ⟨ls, lq, ld, la, lg⟩ := l
      obtain ⟨rfl, rfl⟩ : ls = s ∧ lq = q := hkey
      by_cases hd : ld ≤ satSubI64 nowMs graceMs
      · by_cases hs : ls = subId
        · simp [hd, hs, Option.filter, not_lt.mpr hd]
        · simp [hd, hs, not_lt.mpr hd]
      · simp [hd, Option.filter, not_le.mp hd]
    · intro e hm hs hq
      obtain ⟨l', hl', _, ha⟩ := (he e).mp hm
      rw [hs, hq, hl, Option.some.injEq] at hl'
      exact hl' ▸ ha

theorem coherent_sweepLeases {t : LeaseTable} (h : t.Coherent) (subId : Nat)
    (nowMs graceMs : Int) : (sweepLeases t subId nowMs graceMs).Coherent :=
  coherent_putBack (expireUpTo_spec h _).1 ..

def leaseOfRow (k : RowKey) (r : DeliveryRecord) : Lease :=
  ⟨k.id, k.seq, r.deadlineMs, r.attempts, r.generation⟩

theorem coherent_insertRows {t : LeaseTable} (h : t.Coherent)
    (rows : List (RowKey × DeliveryRecord)) : (rows.foldl insertRow t).Coherent := by
  induction rows generalizing t with
  | nil => exact h
  | cons e rows ih => exact ih (h.insert ..)

theorem get_insertRows (t : LeaseTable) {rows : List (RowKey × DeliveryRecord)}
    (hs : rows.Pairwise (fun a b => a.1 < b.1)) (s q : Nat) :
    (rows.foldl insertRow t).get s q =
      ((SortedMap.lookupEntry ⟨s, q⟩ rows).map (leaseOfRow ⟨s, q⟩)).or (t.get s q) := by
  induction rows generalizing t with
  | nil => rfl
  | cons e rows ih =>
    obtain ⟨⟨es, eq⟩, er⟩ := e
    obtain ⟨he, hrest⟩ := List.pairwise_cons.mp hs
    rw [List.foldl_cons, ih _ hrest, insertRow, get_insert]
    by_cases hk : s = es ∧ q = eq
    · obtain ⟨rfl, rfl⟩ := hk
      have hn : SortedMap.lookupEntry ⟨s, q⟩ rows = none := by
        cases hl : SortedMap.lookupEntry ⟨s, q⟩ rows with
        | none => rfl
        | some r =>
          have hm := (SortedMap.lookupEntry_eq_some hrest).mp hl
          exact absurd (he _ hm) (lt_irrefl _)
      simp [hn, SortedMap.lookupEntry, leaseOfRow]
    · have hk' : (⟨s, q⟩ : RowKey) ≠ ⟨es, eq⟩ := fun h => hk (by simpa using h)
      simp [hk, hk', SortedMap.lookupEntry]

theorem get_recoveredLeases (dlv : SortedMap RowKey DeliveryRecord) (s q : Nat) :
    (recoveredLeases dlv).get s q = (dlv.get ⟨s, q⟩).map (leaseOfRow ⟨s, q⟩) := by
  rw [recoveredLeases, get_insertRows _ dlv.sorted, get_empty, Option.or_none]
  rfl

theorem coherent_recoveredLeases (dlv : SortedMap RowKey DeliveryRecord) :
    (recoveredLeases dlv).Coherent :=
  coherent_insertRows coherent_empty _

end OpenPubusb
