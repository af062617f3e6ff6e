import OpenPubusb.Bisect
import OpenPubusb.Compact
import OpenPubusb.PolicyFields
import OpenPubusb.AttachPoint

/-! Seeking to a time. The binary search looks for the first message published at or
after that time, in a log whose publish times never fall, but from which the retention
sweep may have taken messages anywhere. -/

namespace OpenPubusb

open Hoare

section Times

variable {nowMs : Int} {kv kv' : Kv}

/-- The log up to the time `nowMs`: nothing is past the tail, the publish times are
times of the clock, and they never fall. -/
structure Dated (nowMs : Int) (kv : Kv) : Prop where
  tail : ∀ {t q m}, kv.msg.get ⟨t, q⟩ = some m → q ≤ TopicStore.currentTail kv t
  times : ∀ {t q m}, kv.msg.get ⟨t, q⟩ = some m → i64Min ≤ m.publishTsMs ∧ m.publishTsMs ≤ nowMs
  sorted : ∀ {t q q' m m'}, q ≤ q' → kv.msg.get ⟨t, q⟩ = some m → kv.msg.get ⟨t, q'⟩ = some m' →
    m.publishTsMs ≤ m'.publishTsMs

theorem Dated.of_eq (h : Dated nowMs kv) (hmsg : kv'.msg = kv.msg)
    (hseq : kv'.topicSeq = kv.topicSeq) : Dated nowMs kv' := by
  refine ⟨fun {t q m} hm => ?_, fun {t q m} hm => ?_, fun {t q q' m m'} hq hm hm' => ?_⟩
  · rw [hmsg] at hm
    rw [TopicStore.currentTail, hseq]
    exact h.tail hm
  · rw [hmsg] at hm
    exact h.times hm
  · rw [hmsg] at hm hm'
    exact h.sorted hq hm hm'

theorem Dated.of_sub (h : Dated nowMs kv)
    (hmsg : ∀ k m, kv'.msg.get k = some m → kv.msg.get k = some m)
    (hseq : kv'.topicSeq = kv.topicSeq) : Dated nowMs kv' := by
  refine ⟨fun {t q m} hm => ?_, fun {t q m} hm => ?_, fun {t q q' m m'} hq hm hm' => ?_⟩
  · rw [TopicStore.currentTail, hseq]
    exact h.tail (hmsg _ _ hm)
  · exact h.times (hmsg _ _ hm)
  · exact h.sorted hq (hmsg _ _ hm) (hmsg _ _ hm')

theorem Dated.later {later : Int} (h : Dated nowMs kv) (hle : nowMs ≤ later) : Dated later kv :=
  ⟨h.tail, fun hm => ⟨(h.times hm).1, (h.times hm).2.trans hle⟩, h.sorted⟩

theorem Dated.counted (h : Dated nowMs kv) (topicId w : Nat) :
    Dated nowMs (kv.counted topicId w) :=
  ⟨fun {t _ _} hm => (h.tail hm).trans (currentTail_le_counted kv topicId w t), h.times, h.sorted⟩

theorem Dated.stored (h : Dated nowMs kv) (hnow : i64Min ≤ nowMs) (topicId w : Nat)
    {m : MessageRecord} (hm : m.publishTsMs = nowMs) : Dated nowMs (kv.stored topicId w m) := by
  have hrow : ∀ {t q r}, (kv.stored topicId w m).msg.get ⟨t, q⟩ = some r →
      (t = topicId ∧ q = TopicStore.currentTail kv topicId + 1 ∧ r = m) ∨
        kv.msg.get ⟨t, q⟩ = some r := by
    intro t q r hr
    simp only [Kv.stored, SortedMap.get_insert, RowKey.mk.injEq] at hr
    split_ifs at hr with hk
    · exact Or.inl ⟨hk.1, hk.2, (Option.some.inj hr).symm⟩
    · exact Or.inr hr
  refine ⟨fun {t q r} hr => ?_, fun {t q r} hr => ?_, fun {t q q' r r'} hq hr hr' => ?_⟩
  · have htail := currentTail_stored kv topicId w t m
    rcases hrow hr with ⟨rfl, rfl, _⟩ | hr
    · rw [htail, if_pos rfl]
    · have hle := h.tail hr
      rw [htail]
      split_ifs with ht
      · subst ht
        omega
      · exact hle
  · rcases hrow hr with ⟨_, _, rfl⟩ | hr
    · exact ⟨hm ▸ hnow, hm.le⟩
    · exact h.times hr
  · -- the new row is the last of its log, and no row is of a later time
    rcases hrow hr' with ⟨rfl, rfl, rfl⟩ | hold'
    · rcases hrow hr with ⟨_, _, rfl⟩ | hold
      · exact le_rfl
      · rw [hm]
        exact (h.times hold).2
    · rcases hrow hr with ⟨rfl, rfl, rfl⟩ | hold
      · have hle := h.tail hold'
        omega
      · exact h.sorted hq hold hold'

def KeepsDates (nowMs : Int) (kv kv' : Kv) : Prop := Dated nowMs kv → Dated nowMs kv'

instance : RowFrame (KeepsDates nowMs) where
  refl _ h := h
  trans h h' hd := h' (h hd)
  dlv _ _ _ h := h.of_eq rfl rfl

instance : CursorFrame (KeepsDates nowMs) where
  cursor _ _ _ h := h.of_eq rfl rfl

instance : TouchFrame (KeepsDates nowMs) where
  touch := keeps_touch_of (fun _ _ h => h.of_eq rfl rfl) fun _ _ h => h.of_eq rfl rfl

theorem appendFrame_dates (hnow : i64Min ≤ nowMs) : AppendFrame nowMs (KeepsDates nowMs) where
  append topicId ms retentionSecs := by
    refine Keeps.bind (Keeps.liftResult _) fun _ => ?_
    generalize TopicStore.expireAt nowMs retentionSecs = expireAtMs
    induction ms with
    | nil => exact Keeps.pure _
    | cons m ms ih =>
      intro kv
      simp only [TopicStore.appendAll, TopicStore.nextSeq, putTopicSeq, putMsg, ensures_bind,
        ensures_estateGet, ensures_kvWrite, ensures_pure]
      refine ⟨fun _ => ⟨fun _ => ?_, fun _ h => h.counted topicId _⟩, fun _ h => h.of_eq rfl rfl⟩
      exact (ih (kv.stored topicId (kv.writes + 1 + 1) _)).mono
        (fun _ _ hk h => hk (h.stored hnow topicId _ rfl))
        (fun _ _ hk h => hk (h.stored hnow topicId _ rfl))

end Times

section Runs

variable {s : Engine} {i : Input}

theorem step_dated (hwf : s.WellFormed) (hc : Consistent s.kv) (hnow : i64Min ≤ i.nowMs)
    (h : Dated i.nowMs s.kv) : Dated i.nowMs (step s i).2.kv := by
  have := appendFrame_dates hnow
  by_cases happ : i.op.appends = true
  · have hkeeps : i.op ≠ .sweepRetention → KeepsDates i.nowMs s.kv (step s i).2.kv := by
      intro hop
      refine ensures_step (P := fun t => KeepsDates i.nowMs s.kv t.kv) ?_
      cases hi : i.op with
      | publish topic messages =>
        have hpub : Keeps (OnStore (KeepsDates i.nowMs))
            (PubSubService.publish topic messages i.nowMs) := keeps_publish topic messages i.nowMs
        exact Keeps.bind_pure hpub _ s
      | pull name n =>
        have hpull : Keeps (OnStore (KeepsDates i.nowMs)) (perform i.nowMs (.pull name n)) :=
          keeps_lease i.nowMs rfl
        exact hpull s
      | leaseForStream sid =>
        have hlease : Keeps (OnStore (KeepsDates i.nowMs)) (perform i.nowMs (.leaseForStream sid)) :=
          keeps_lease i.nowMs rfl
        exact hlease s
      | sweepRetention => exact absurd hi hop
      | _ =>
        rw [hi] at happ
        cases happ
    by_cases hop : i.op = .sweepRetention
    · obtain ⟨kv₁, hexp, hswept, hprune, _⟩ := step_swept hwf hc hop
      refine h.of_sub (fun k m hm => ?_) (hprune.topicSeq.trans hexp.topicSeq)
      rw [hprune.msg] at hm
      cases hold : s.kv.msg.get k with
      | none =>
        rw [hswept.gone hold] at hm
        cases hm
      | some m' =>
        rcases hswept.msg hold with hm' | ⟨hm', _⟩
        · rw [hm'] at hm
          exact hm
        · rw [hm'] at hm
          cases hm
    · exact hkeeps hop h
  · obtain ⟨hmsg, hseq⟩ := (step_path i hc hwf.healthy).log_eq (by simpa using happ)
    exact h.of_eq hmsg hseq

/-- A clock that never goes back, with `i64` times. -/
structure Clocked (is : List Input) : Prop where
  monotone : (is.map Input.nowMs).Pairwise (· ≤ ·)
  times : ∀ i ∈ is, i64Min ≤ i.nowMs

theorem dated_final {is : List Input} (h : Clocked is) {later : Int}
    (hlater : ∀ i ∈ is, i.nowMs ≤ later) : Dated later (Run.final step start is).kv := by
  induction is using List.reverseRecOn generalizing later with
  | nil => exact ⟨fun h => (by cases h), fun h => (by cases h), fun _ h => (by cases h)⟩
  | append_singleton is i ih =>
    have hmono := h.monotone
    rw [List.map_append, List.pairwise_append] at hmono
    have hpast : ∀ j ∈ is, j.nowMs ≤ i.nowMs := fun j hj =>
      hmono.2.2 _ (List.mem_map_of_mem hj) _ List.mem_cons_self
    have hbefore := ih ⟨hmono.1, fun j hj => h.times j (List.mem_append_left _ hj)⟩ hpast
    have hi : i ∈ is ++ [i] := List.mem_append_right _ List.mem_cons_self
    rw [Run.final_append]
    have hafter := step_dated (i := i) (wellFormed_final is) (consistent_final is).1 (h.times i hi)
      hbefore
    exact hafter.later (hlater i hi)

theorem exists_dated_final {is : List Input} (h : Clocked is) :
    ∃ later, Dated later (Run.final step start is).kv := by
  cases is using List.reverseRecOn with
  | nil => exact ⟨0, dated_final h (by simp)⟩
  | append_singleton is i =>
    refine ⟨i.nowMs, dated_final h fun j hj => ?_⟩
    have hmono := h.monotone
    rw [List.map_append, List.pairwise_append] at hmono
    rcases List.mem_append.mp hj with hj | hj
    · exact hmono.2.2 _ (List.mem_map_of_mem hj) _ List.mem_cons_self
    · rw [List.mem_singleton.mp hj]

/-- The attach points of the cursors are not past the tail of their topic. -/
structure Behind (kv : Kv) : Prop where
  cursor : ∀ {id c r}, kv.cursors.get id = some c → kv.subs.get id = some r →
    c.attachSeq ≤ TopicStore.currentTail kv r.topicId
  snap : ∀ {id x}, kv.snaps.get id = some x →
    x.cursor.attachSeq ≤ TopicStore.currentTail kv x.topicId

theorem Behind.seekTarget (h : Behind s.kv) (hwf : s.WellFormed) {op : Op} {j : Nat}
    {c : CursorRecord} {r : SubscriptionRecord} (hseek : seekTarget s.kv op = some (j, c))
    (hr : s.kv.subs.get j = some r) : c.attachSeq ≤ TopicStore.currentTail s.kv r.topicId := by
  obtain ⟨_, sub, hsub, rfl, ⟨_, snap, hsnap, ht, rfl⟩ | ⟨_, c₀, hc₀, rfl⟩⟩ := seekTarget_cases hseek
  · obtain ⟨_, _, hs⟩ := snapshotGet_eq_ok hsnap
    rw [hwf.get_ok hsub, Option.some.injEq] at hr
    rw [← hr, ← ht]
    exact h.snap hs
  · have hle : c₀.attachSeq ≤ TopicStore.currentTail s.kv r.topicId := h.cursor hc₀ hr
    exact hle

theorem step_behind (hwf : s.WellFormed) (hc : Consistent s.kv) (ha : Anchored (step s i).2.kv)
    (h : Behind s.kv) : Behind (step s i).2.kv := by
  have hh := hwf.healthy
  have hold : ∀ {j c}, s.kv.cursors.get j = some c → j ≤ s.kv.counter := by
    intro j c hj
    refine hc.sub_known ?_
    rw [← hc.cursors, hj]
    rfl
  refine ⟨fun {j c' r'} hc' hr' => ?_, fun {j x'} hx' => ?_⟩
  · rcases step_cursor hc hh hc' with ⟨c, hcur, hadv, _⟩ | hseek | ⟨_, r, hr, rfl⟩
    · obtain ⟨r, hr, ht, _⟩ := (step_record hc hh i hr').kept (hold hcur)
      rw [hadv.attachSeq, ht]
      exact (h.cursor hcur hr).trans (step_tail hwf hc i _)
    · obtain ⟨c, hcur⟩ := Option.isSome_iff_exists.mp (seekTarget_cursor hc hseek)
      obtain ⟨r, hr, ht, _⟩ := (step_record hc hh i hr').kept (hold hcur)
      rw [ht]
      exact (h.seekTarget hwf hseek hr).trans (step_tail hwf hc i _)
    · rw [hr, Option.some.injEq] at hr'
      rw [← hr']
      exact (ha.cursor hc').trans (step_tail hwf hc i _)
  · rcases step_snap hc hh hx' with ⟨x, hx, ht, hcur⟩ | ⟨id, r, hr, ht, hcur⟩
    · rw [ht, hcur]
      exact (h.snap hx).trans (step_tail hwf hc i _)
    · rw [ht]
      exact (h.cursor hcur hr).trans (step_tail hwf hc i _)

theorem behind_final (is : List Input) : Behind (Run.final step start is).kv := by
  induction is using List.reverseRecOn with
  | nil => exact ⟨fun h => (by cases h), fun h => (by cases h)⟩
  | append_singleton is i ih =>
    have hanchored := anchored_final (is ++ [i])
    rw [Run.final_append] at hanchored ⊢
    exact step_behind (wellFormed_final is) (consistent_final is).1 hanchored ih

end Runs

section Seek

variable {kv : Kv} {topicId attachSeq : Nat} {timeMs nowMs : Int} {s : Engine}

/-- What the binary search takes for published before the time. -/
def before (kv : Kv) (topicId : Nat) (timeMs : Int) (q : Nat) : Bool :=
  TopicStore.publishTsMs kv topicId q < timeMs

def probed (kv : Kv) (topicId : Nat) (timeMs : Int) : List Nat :=
  Bisect.probes (before kv topicId timeMs) (TopicStore.currentTail kv topicId) 1
    (TopicStore.currentTail kv topicId + 1)

theorem boundarySearch_eq (fuel lo hi : Nat) :
    TopicStore.boundarySearch kv topicId timeMs fuel lo hi =
      Bisect.search (before kv topicId timeMs) fuel lo hi := by
  induction fuel generalizing lo hi with
  | zero => rfl
  | succ fuel ih =>
    simp only [TopicStore.boundarySearch, Bisect.search, before, ih, decide_eq_true_eq]

/-- The cursor splits the log at the time, and has everything open that is still to come. -/
structure Splits (kv : Kv) (topicId : Nat) (timeMs : Int) (c : CursorRecord) : Prop where
  present : ∀ q m, kv.msg.get ⟨topicId, q⟩ = some m → c.attachSeq < q →
    (c.isDone q = false ↔ timeMs ≤ m.publishTsMs)
  later : ∀ q, TopicStore.currentTail kv topicId < q → c.isDone q = false

/-- The search finds no gap above a message of the time or later. -/
def NoGapAbove (kv : Kv) (topicId attachSeq : Nat) (timeMs : Int) : Prop :=
  i64Min < timeMs → ∀ n ∈ probed kv topicId timeMs, kv.msg.get ⟨topicId, n⟩ = none →
    ∀ q m, attachSeq < q → q < n → kv.msg.get ⟨topicId, q⟩ = some m → m.publishTsMs < timeMs

theorem before_iff {q : Nat} : before kv topicId timeMs q = true ↔
    match kv.msg.get ⟨topicId, q⟩ with
    | some m => m.publishTsMs < timeMs
    | none => i64Min < timeMs := by
  unfold before TopicStore.publishTsMs
  cases kv.msg.get ⟨topicId, q⟩ <;> simp

/-- A message below the boundary is before the time, unless the search was led past it
by a gap. -/
theorem before_of_lt_boundary (h : Dated nowMs kv) (hgap : NoGapAbove kv topicId attachSeq timeMs)
    {q : Nat} {m : MessageRecord} (hm : kv.msg.get ⟨topicId, q⟩ = some m) (hq : attachSeq < q)
    (hlt : q < TopicStore.seqBoundaryForTime kv topicId timeMs) : m.publishTsMs < timeMs := by
  rw [TopicStore.seqBoundaryForTime, boundarySearch_eq] at hlt
  rcases @Bisect.search_eq_left (before kv topicId timeMs) (TopicStore.currentTail kv topicId) 1
    (TopicStore.currentTail kv topicId + 1) (by omega) with hone | ⟨n, hn, hbefore, hend⟩
  · omega
  · rw [before_iff] at hbefore
    cases hrow : kv.msg.get ⟨topicId, n⟩ with
    | some m' =>
      rw [hrow] at hbefore
      exact (h.sorted (by omega) hm hrow).trans_lt hbefore
    | none =>
      rw [hrow] at hbefore
      have hne : q ≠ n := by
        rintro rfl
        rw [hrow] at hm
        cases hm
      exact hgap hbefore n hn hrow q m hq (by omega) hm

theorem not_before_of_boundary_le (h : Dated nowMs kv) {q : Nat} {m : MessageRecord}
    (hm : kv.msg.get ⟨topicId, q⟩ = some m)
    (hle : TopicStore.seqBoundaryForTime kv topicId timeMs ≤ q) : timeMs ≤ m.publishTsMs := by
  rw [TopicStore.seqBoundaryForTime, boundarySearch_eq] at hle
  have htail := h.tail hm
  rcases @Bisect.search_eq_right (before kv topicId timeMs) (TopicStore.currentTail kv topicId) 1
    (TopicStore.currentTail kv topicId + 1) (by omega) (by omega) with hend | ⟨n, hn, hbefore, hend⟩
  · omega
  · rw [Bool.eq_false_iff, ne_eq, before_iff] at hbefore
    cases hrow : kv.msg.get ⟨topicId, n⟩ with
    | some m' =>
      rw [hrow] at hbefore
      exact (not_lt.mp hbefore).trans (h.sorted (by omega) hrow hm)
    | none =>
      rw [hrow] at hbefore
      exact (not_lt.mp hbefore).trans (h.times hm).1

theorem lt_boundary_of_gap {n : Nat} (hn : n ∈ probed kv topicId timeMs)
    (hgap : kv.msg.get ⟨topicId, n⟩ = none) (htime : i64Min < timeMs) :
    n < TopicStore.seqBoundaryForTime kv topicId timeMs := by
  rw [TopicStore.seqBoundaryForTime, boundarySearch_eq,
    Bisect.lt_search_iff_of_mem (by omega) hn, before_iff, hgap]
  exact htime

theorem boundary_le_tail (kv : Kv) (topicId : Nat) (timeMs : Int) :
    TopicStore.seqBoundaryForTime kv topicId timeMs ≤ TopicStore.currentTail kv topicId + 1 := by
  rw [TopicStore.seqBoundaryForTime, boundarySearch_eq]
  exact (Bisect.search_mem_Icc (by omega)).2

theorem splits_iff (h : Dated nowMs kv) (hattach : attachSeq ≤ TopicStore.currentTail kv topicId) :
    Splits kv topicId timeMs (.fresh attachSeq
      (max (TopicStore.seqBoundaryForTime kv topicId timeMs - 1) attachSeq)) ↔
      NoGapAbove kv topicId attachSeq timeMs := by
  have hopen : ∀ q, (CursorRecord.fresh attachSeq
      (max (TopicStore.seqBoundaryForTime kv topicId timeMs - 1) attachSeq)).isDone q = false ↔
      max (TopicStore.seqBoundaryForTime kv topicId timeMs - 1) attachSeq < q := by
    intro q
    rw [Bool.eq_false_iff, ne_eq, CursorRecord.fresh_isDone, not_le]
  constructor
  · intro hsplits htime n hn hgap q m hq hlt hm
    by_contra hle
    have hnot := (hopen q).mp ((hsplits.present q m hm hq).mpr (not_lt.mp hle))
    have hpast := lt_boundary_of_gap hn hgap htime
    omega
  · intro hgap
    refine ⟨fun q m hm hq => ?_, fun q hq => ?_⟩
    · have hq : attachSeq < q := hq
      rw [hopen]
      constructor
      · intro hlt
        exact not_before_of_boundary_le h hm (by omega)
      · intro hle
        by_contra hnot
        have hlt := before_of_lt_boundary h hgap hm hq (by omega)
        omega
    · have htail := boundary_le_tail kv topicId timeMs
      rw [hopen]
      omega

theorem Restored.cursor {subId : Nat} {c : CursorRecord} {t : Engine}
    (h : Restored subId c s t) : t.kv.cursors.get subId = some c := by
  obtain ⟨dlv, w, hkv⟩ := h.rest
  rw [hkv]
  exact SortedMap.get_insert_self ..

theorem seekToTime_restores (hwf : s.WellFormed) (hcons : Consistent s.kv) {name : String}
    {sub : SubscriptionRecord} (hsub : SubscriptionStore.get s.kv name = .ok sub) (timeMs : Int) :
    ∃ c t, s.kv.cursors.get sub.id = some c ∧ PubSubService.seekToTime name timeMs s = .ok () t ∧
      Restored sub.id (.fresh c.attachSeq
        (max (TopicStore.seqBoundaryForTime s.kv sub.topicId timeMs - 1) c.attachSeq)) s t := by
  have hcur : (s.kv.cursors.get sub.id).isSome := by
    rw [hcons.cursors, hwf.get_ok hsub]
    rfl
  obtain ⟨c, hc⟩ := Option.isSome_iff_exists.mp hcur
  have hseek : Ensures (PubSubService.seekToTime name timeMs) s
      (fun _ t => Restored sub.id (.fresh c.attachSeq
        (max (TopicStore.seqBoundaryForTime s.kv sub.topicId timeMs - 1) c.attachSeq)) s t)
      (fun _ _ => False) := by
    simp only [PubSubService.seekToTime, loadCursor, ensures_bind, ensures_get, hsub, liftResult,
      ensures_pure, hc]
    exact ensures_restoreCursor _ hwf.healthy _
  cases hr : PubSubService.seekToTime name timeMs s with
  | error e t => exact (hseek.of_error hr).elim
  | ok u t => exact ⟨c, t, hc, rfl, hseek.of_ok hr⟩

/-- In every state reached under a clock that never goes back, a seek to a time splits
the log at this time exactly when its binary search finds no gap above a message that
was published at this time or later. -/
theorem seek_splits_iff {is : List Input} (hclock : Clocked is) {name : String}
    {sub : SubscriptionRecord}
    (hsub : SubscriptionStore.get (Run.final step start is).kv name = .ok sub) (timeMs : Int) :
    ∃ c t c', (Run.final step start is).kv.cursors.get sub.id = some c ∧
      PubSubService.seekToTime name timeMs (Run.final step start is) = .ok () t ∧
      t.kv.cursors.get sub.id = some c' ∧ c'.attachSeq = c.attachSeq ∧
      t.kv.msg = (Run.final step start is).kv.msg ∧
      (Splits t.kv sub.topicId timeMs c' ↔
        NoGapAbove (Run.final step start is).kv sub.topicId c.attachSeq timeMs) := by
  have hwf := wellFormed_final is
  have hbehind := behind_final is
  obtain ⟨later, hdated⟩ := exists_dated_final hclock
  obtain ⟨c, t, hc, hseek, hrestored⟩ :=
    seekToTime_restores hwf (consistent_final is).1 hsub timeMs
  generalize Run.final step start is = s at *
  have hattach := hbehind.cursor hc (hwf.get_ok hsub)
  obtain ⟨dlv, w, hkv⟩ := hrestored.rest
  refine ⟨c, t, _, hc, hseek, hrestored.cursor, rfl, by rw [hkv], ?_⟩
  rw [← splits_iff hdated hattach, hkv]
  exact ⟨fun h => ⟨h.present, h.later⟩, fun h => ⟨h.present, h.later⟩⟩

theorem noGapAbove_of_full
    (h : ((probed kv topicId timeMs).all fun n => (kv.msg.get ⟨topicId, n⟩).isSome) = true) :
    NoGapAbove kv topicId attachSeq timeMs := by
  intro _ n hn hgap
  have hrow := List.all_eq_true.mp h n hn
  rw [hgap] at hrow
  cases hrow

/-- The second message comes a second after the first. -/
def secondLater : List Input :=
  setup {} ++ [⟨1000, .publish "projects/p/topics/top1" [⟨[4], ∅, ""⟩]⟩]

theorem seek_splits_full_log : ∃ sub t c',
    SubscriptionStore.get (Run.final step start secondLater).kv "projects/p/subscriptions/subA" =
      .ok sub ∧
    PubSubService.seekToTime "projects/p/subscriptions/subA" 500 (Run.final step start secondLater) =
      .ok () t ∧
    t.kv.cursors.get sub.id = some c' ∧ Splits t.kv sub.topicId 500 c' ∧
    c'.isDone 1 = true ∧ c'.isDone 2 = false := by
  have hclock : Clocked secondLater := ⟨by decide, by decide⟩
  have hget : (SubscriptionStore.get (Run.final step start secondLater).kv
      "projects/p/subscriptions/subA").toOption.any (fun sub =>
        ((probed (Run.final step start secondLater).kv sub.topicId 500).all fun n =>
          ((Run.final step start secondLater).kv.msg.get ⟨sub.topicId, n⟩).isSome) &&
        (((Run.final step start secondLater).kv.msg.get ⟨sub.topicId, 1⟩).map
          MessageRecord.publishTsMs = some 0 &&
        ((Run.final step start secondLater).kv.msg.get ⟨sub.topicId, 2⟩).map
          MessageRecord.publishTsMs = some 1000 &&
        ((Run.final step start secondLater).kv.cursors.get sub.id).map
          CursorRecord.attachSeq = some 0)) = true := by
    decide +kernel
  cases hsub : SubscriptionStore.get (Run.final step start secondLater).kv
    "projects/p/subscriptions/subA" with
  | error e =>
    rw [hsub] at hget
    cases hget
  | ok sub =>
    rw [hsub] at hget
    obtain ⟨hfull, hrows⟩ := Bool.and_eq_true_iff.mp hget
    simp only [Bool.and_eq_true, decide_eq_true_eq, Option.map_eq_some_iff] at hrows
    obtain ⟨⟨⟨m₁, hm₁, hat₁⟩, m₂, hm₂, hat₂⟩, c₀, hc₀, hattach⟩ := hrows
    obtain ⟨c, t, c', hc, hseek, hc', hkept, hmsg, hiff⟩ := seek_splits_iff hclock hsub 500
    rw [hc₀, Option.some.injEq] at hc
    subst hc
    have hsplits := hiff.mpr (noGapAbove_of_full hfull)
    have hbefore := hsplits.present 1 m₁ (by rw [hmsg, hm₁]) (by omega)
    have hafter := hsplits.present 2 m₂ (by rw [hmsg, hm₂]) (by omega)
    refine ⟨sub, t, c', rfl, hseek, hc', hsplits, ?_, hafter.mpr (by omega)⟩
    rw [← Bool.not_eq_false, hbefore]
    omega

/-- The second message is published under a shorter retention, and removed first. -/
def sweptAbove : List Input :=
  setup {} ++ [⟨0, .updateTopic "projects/p/topics/top1" none (some (some 600)) none⟩,
    ⟨0, .publish "projects/p/topics/top1" [⟨[4], ∅, ""⟩]⟩, ⟨700000, .sweepRetention⟩]

/-- What the seek leaves of the first message: its row and whether it is done. -/
def afterSeek (s : Engine) (name : String) (timeMs : Int) : Option (Nat × Option Int × Bool) :=
  match SubscriptionStore.get s.kv name, PubSubService.seekToTime name timeMs s with
  | .ok sub, .ok _ t => (t.kv.cursors.get sub.id).map fun c =>
    (c.attachSeq, (t.kv.msg.get ⟨sub.topicId, 1⟩).map MessageRecord.publishTsMs, c.isDone 1)
  | _, _ => none

/-- The gap left by the second message takes the search past the first one. -/
theorem seek_loses_message : ¬ ∀ (is : List Input) (name : String) (sub : SubscriptionRecord)
    (timeMs : Int) (t : Engine) (c' : CursorRecord), Clocked is →
      SubscriptionStore.get (Run.final step start is).kv name = .ok sub →
      PubSubService.seekToTime name timeMs (Run.final step start is) = .ok () t →
      t.kv.cursors.get sub.id = some c' → Splits t.kv sub.topicId timeMs c' := by
  intro h
  have hclock : Clocked sweptAbove := ⟨by decide, by decide⟩
  have hafter : afterSeek (Run.final step start sweptAbove) "projects/p/subscriptions/subA" 0 =
      some (0, some 0, true) := by
    decide +kernel
  unfold afterSeek at hafter
  cases hsub : SubscriptionStore.get (Run.final step start sweptAbove).kv
    "projects/p/subscriptions/subA" with
  | error e =>
    rw [hsub] at hafter
    cases hafter
  | ok sub =>
    cases hseek : PubSubService.seekToTime "projects/p/subscriptions/subA" 0
      (Run.final step start sweptAbove) with
    | error e t =>
      rw [hsub, hseek] at hafter
      cases hafter
    | ok u t =>
      rw [hsub, hseek] at hafter
      obtain ⟨c', hc', hvalues⟩ := Option.map_eq_some_iff.mp hafter
      simp only [Prod.mk.injEq, Option.map_eq_some_iff] at hvalues
      obtain ⟨hattach, ⟨m, hm, htime⟩, hdone⟩ := hvalues
      have hsplits := h sweptAbove _ sub 0 t c' hclock hsub hseek hc'
      have hopen := (hsplits.present 1 m hm (by omega)).mpr (by omega)
      rw [hdone] at hopen
      cases hopen

end Seek

end OpenPubusb
