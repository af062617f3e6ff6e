import OpenPubusb.Apart
import OpenPubusb.Drain
import OpenPubusb.RecordUpdates

/-! A pull of `n + m` messages is a pull of `n` and a pull of `m` at the same time: the
second one passes over what the first one has decided and goes on where it stopped. -/

namespace OpenPubusb

open Hoare

section Decisions

variable {a : LeaseArgs} {s t u : Engine} {c c' : CursorRecord} {q : Nat} {m : MessageRecord}

theorem judge_congr (hdone : c'.isDone q = c.isDone q)
    (hl : t.leases.get a.subId q = s.leases.get a.subId q)
    (hd : t.kv.dlv.get ⟨a.subId, q⟩ = s.kv.dlv.get ⟨a.subId, q⟩)
    (hpolicy : reclaimPolicy t.kv a.subId = reclaimPolicy s.kv a.subId)
    (htopic : ∀ name, TopicStore.get t.kv name = TopicStore.get s.kv name) :
    judge a t c' q m = judge a s c q m := by
  have hlast : t.lastDelivery a.subId q = s.lastDelivery a.subId q := by
    rw [Engine.lastDelivery, Engine.lastDelivery, hl, hd]
  have hheld : t.heldAt a.nowMs a.subId q = s.heldAt a.nowMs a.subId q := by
    rw [Engine.heldAt, Engine.heldAt, hl]
  have hagain : ∀ n, redeliver t.kv (reclaimPolicy s.kv a.subId) m n =
      redeliver s.kv (reclaimPolicy s.kv a.subId) m n := by
    intro n
    unfold redeliver
    rw [htopic]
  simp only [judge, hdone, hheld, hpolicy, hlast, Engine.priorAttempts, hagain]

theorem judge_skips_done (h : c.isDone q = true) : judge a s c q m = .skip := by
  simp [judge, h]

theorem judge_skips_held (hacc : accepts a.filter m.attributes = true)
    (h : s.heldAt a.nowMs a.subId q = true) : judge a s c q m = .skip := by
  simp [judge, hacc, h]

theorem accepts_of_leased {n : Nat} (h : judge a s c q m = .lease n) :
    accepts a.filter m.attributes = true := by
  cases hacc : accepts a.filter m.attributes with
  | true => rfl
  | false =>
    cases hd : c.isDone q <;> simp [judge, hd, hacc] at h

end Decisions

/-- What a call that returned `out` has done on the decisions `vs`. -/
structure Walked (a : LeaseArgs) (vs : List Judged) (s : Engine) (c : CursorRecord)
    (out : List Delivered) (t : Engine) : Prop where
  out : out = vs.filterMap (Judged.delivery a)
  taken : ∀ v ∈ vs, ∀ e, v.verdict ≠ .refuse e
  visited : ∀ v ∈ vs,
    t.leases.get a.subId v.seq = v.verdict.leaseAfter a v.seq (s.leases.get a.subId v.seq) ∧
    t.kv.dlv.get ⟨a.subId, v.seq⟩ = v.verdict.rowAfter a v.seq (s.kv.dlv.get ⟨a.subId, v.seq⟩)
  others : ∀ i q, (i = a.subId → ∀ v ∈ vs, v.seq ≠ q) →
    t.leases.get i q = s.leases.get i q ∧ t.kv.dlv.get ⟨i, q⟩ = s.kv.dlv.get ⟨i, q⟩
  cursor : ∃ c', t.kv.cursors.get a.subId = some c' ∧ ∀ q, c'.isDone q = true ↔
    c.isDone q = true ∨ ∃ v ∈ vs, v.seq = q ∧ v.verdict.finishes = true
  cursors : ∀ i ≠ a.subId, t.kv.cursors.get i = s.kv.cursors.get i
  log : t.kv.msg = (appendRows s.kv (vs.filterMap (Judged.copy s.kv a))).msg ∧
    t.kv.topicSeq = (appendRows s.kv (vs.filterMap (Judged.copy s.kv a))).topicSeq
  topics : t.kv.topics = s.kv.topics ∧ t.kv.topicNames = s.kv.topicNames
  policy : ∀ i, reclaimPolicy t.kv i = reclaimPolicy s.kv i
  filter : t.filterOf a.subId = s.filterOf a.subId
  healthy : t.kv.Healthy

/-- The delivery state of two engines is the same, as far as a client can tell. -/
structure DeliversAlike (s t : Engine) : Prop where
  leases : ∀ i q, t.leases.get i q = s.leases.get i q
  dlv : ∀ i q, t.kv.dlv.get ⟨i, q⟩ = s.kv.dlv.get ⟨i, q⟩
  done : ∀ i q, (t.kv.cursors.get i).map (·.isDone q) = (s.kv.cursors.get i).map (·.isDone q)
  msg : t.kv.msg = s.kv.msg
  topicSeq : t.kv.topicSeq = s.kv.topicSeq

section Sweeps

variable {a : LeaseArgs} {s t u : Engine} {c c' : CursorRecord} {vs ws : List Judged}
  {out out' : List Delivered}

theorem walked_leaseNext {i topicId : Nat} {maxMessages nowMs secs : Int} (hh : s.kv.Healthy)
    (hmax : 0 < maxMessages) (hc : s.kv.cursors.get i = some c)
    (h : leaseNext i topicId maxMessages nowMs secs s = .ok out t) :
    Walked (leaseArgs s i topicId maxMessages nowMs secs)
      (planned (leaseArgs s i topicId maxMessages nowMs secs) s c) s c out t := by
  have hexact := (ensures_leaseNext_exact topicId nowMs secs hmax hc).of_ok h
  have hfilter := (ensures_leaseNext_filter hmax hc topicId secs).of_ok h
  obtain ⟨v, sc, hscan, rfl, _, rfl⟩ := hexact
  have hcached : (s.cacheFilter i).kv.cursors.get
      (leaseArgs s i topicId maxMessages nowMs secs).subId = some c := hc
  have hcur := withCursor_get hscan hcached
  rw [planned_cacheFilter] at hscan
  obtain ⟨dlv, hkv⟩ := hscan.kv
  obtain ⟨topicSeq, msg, hrows⟩ := appendRows_kept (s.cacheFilter i).kv
    ((planned (leaseArgs s i topicId maxMessages nowMs secs) s c).filterMap
      (Judged.copy (s.cacheFilter i).kv (leaseArgs s i topicId maxMessages nowMs secs)))
  have hleases : (v.withCursor i sc).leases = v.leases := by
    unfold Engine.withCursor
    split_ifs <;> rfl
  have hrest : ∃ cursors w, (v.withCursor i sc).kv =
      { v.kv with cursors := cursors, writes := w } := by
    unfold Engine.withCursor
    split_ifs
    · exact ⟨_, _, rfl⟩
    · exact ⟨v.kv.cursors, v.kv.writes, rfl⟩
  obtain ⟨cursors, w, hrest⟩ := hrest
  change Walked _ _ s c sc.out (v.withCursor i sc)
  refine ⟨by simpa using hscan.out, hscan.taken, fun x hx => ?_, fun j q hq => ?_,
    ⟨sc.cursor, ?_, hscan.done⟩, fun j hj => ?_, ?_, ?_, fun j => ?_, ?_, ?_⟩
  · rw [hleases, hrest]
    exact hscan.visited x hx
  · rw [hleases, hrest]
    exact hscan.others j q hq
  · exact (hcur i).trans (if_pos rfl)
  · exact (hcur j).trans (if_neg hj)
  · rw [hrest, hkv]
    exact ⟨rfl, rfl⟩
  · rw [hrest, hkv, hrows]
    exact ⟨rfl, rfl⟩
  · rw [hrest, hkv, hrows]
    rfl
  · have hcache : (v.withCursor i sc).filters.get i = some (s.filterOf i) := hfilter
    show ((v.withCursor i sc).filters.get i).getD _ = _
    rw [hcache]
    rfl
  · rw [hrest, hkv, hrows]
    exact hh

theorem Walked.resize (h : Walked a vs s c out t) (n : Nat) :
    Walked { a with maxMessages := n } vs s c out t :=
  ⟨h.out, h.taken, h.visited, h.others, h.cursor, h.cursors, h.log, h.topics, h.policy, h.filter,
    h.healthy⟩

theorem appendRows_log {kv kv' : Kv} (hmsg : kv'.msg = kv.msg) (hseq : kv'.topicSeq = kv.topicSeq)
    (rows : List (Nat × MessageRecord)) :
    (appendRows kv' rows).msg = (appendRows kv rows).msg ∧
      (appendRows kv' rows).topicSeq = (appendRows kv rows).topicSeq := by
  induction rows generalizing kv kv' with
  | nil => exact ⟨hmsg, hseq⟩
  | cons row rows ih =>
    have htail : TopicStore.currentTail kv' row.1 = TopicStore.currentTail kv row.1 := by
      rw [TopicStore.currentTail, TopicStore.currentTail, hseq]
    refine ih ?_ ?_
    · simp only [Kv.appendRow, hmsg, htail]
    · simp only [Kv.appendRow, Kv.countUp, hseq, htail]

theorem scanPrefix_appendRows {kv : Kv} {rows : List (Nat × MessageRecord)} {topicId : Nat}
    (h : ∀ row ∈ rows, row.1 ≠ topicId) :
    scanPrefix (appendRows kv rows).msg topicId = scanPrefix kv.msg topicId := by
  induction rows generalizing kv with
  | nil => rfl
  | cons row rows ih =>
    refine (ih fun x hx => h x (List.mem_cons_of_mem _ hx)).trans (scanPrefix_congr fun q => ?_)
    refine SortedMap.get_insert_ne _ _ fun he => h row List.mem_cons_self ?_
    exact (congrArg RowKey.id he).symm

theorem copy_congr {kv kv' : Kv} (h : reclaimPolicy kv' a.subId = reclaimPolicy kv a.subId)
    (v : Judged) : v.copy kv' a = v.copy kv a := by
  unfold Judged.copy copyRow
  rw [h]

theorem Walked.quiet (h : Walked a (vs ++ ws) s c out t) (hskip : ∀ v ∈ vs, v.verdict = .skip)
    {i q : Nat} (hq : i = a.subId → ∀ w ∈ ws, w.seq ≠ q) :
    t.leases.get i q = s.leases.get i q ∧ t.kv.dlv.get ⟨i, q⟩ = s.kv.dlv.get ⟨i, q⟩ := by
  by_cases hv : i = a.subId ∧ ∃ v ∈ vs, v.seq = q
  · obtain ⟨rfl, v, hv, rfl⟩ := hv
    have hvis := h.visited v (List.mem_append_left _ hv)
    rw [hskip v hv] at hvis
    exact hvis
  · refine h.others i q fun hi v hmem hseq => ?_
    rcases List.mem_append.mp hmem with hvs | hws
    · exact hv ⟨hi, v, hvs, hseq⟩
    · exact hq hi v hws hseq

theorem Walked.then {us : List Judged} (h : Walked a vs s c out t)
    (hc' : t.kv.cursors.get a.subId = some c') (h' : Walked a (us ++ ws) t c' out' u)
    (hskip : ∀ v ∈ us, v.verdict = .skip) (hne : ∀ v ∈ vs, ∀ w ∈ ws, v.seq ≠ w.seq) :
    Walked a (vs ++ ws) s c (out ++ out') u := by
  have hnone : ∀ (β : Type) (f : Judged → Option β), (∀ v : Judged, v.verdict = .skip → f v = none) →
      us.filterMap f = [] := by
    intro β f hf
    exact List.filterMap_eq_nil_iff.mpr fun v hv => hf v (hskip v hv)
  have hcopies : (us ++ ws).filterMap (Judged.copy t.kv a) = ws.filterMap (Judged.copy s.kv a) := by
    rw [List.filterMap_append, hnone _ _ fun v hv => by rw [Judged.copy, hv], List.nil_append]
    exact List.filterMap_congr fun v _ => copy_congr (h.policy a.subId) v
  refine ⟨?_, fun v hv => ?_, fun v hv => ?_, fun i q hq => ?_, ?_, fun i hi => ?_, ?_, ?_,
    fun i => (h'.policy i).trans (h.policy i), h'.filter.trans h.filter, h'.healthy⟩
  · rw [h.out, h'.out, List.filterMap_append, List.filterMap_append,
      hnone _ _ fun v hv => by rw [Judged.delivery, hv], List.nil_append]
  · rcases List.mem_append.mp hv with hv | hv
    · exact h.taken v hv
    · exact h'.taken v (List.mem_append_right _ hv)
  · rcases List.mem_append.mp hv with hv | hv
    · obtain ⟨hl, hd⟩ := h'.quiet hskip (i := a.subId) (q := v.seq)
        fun _ w hw he => hne v hv w hw he.symm
      rw [hl, hd]
      exact h.visited v hv
    · obtain ⟨hl, hd⟩ := h.others a.subId v.seq fun _ x hx => hne x hx v hv
      rw [← hl, ← hd]
      exact h'.visited v (List.mem_append_right _ hv)
  · obtain ⟨hl, hd⟩ := h.others i q fun hi v hv => hq hi v (List.mem_append_left _ hv)
    obtain ⟨hl', hd'⟩ := h'.quiet hskip fun hi w hw => hq hi w (List.mem_append_right _ hw)
    exact ⟨hl'.trans hl, hd'.trans hd⟩
  · obtain ⟨c₁, hc₁, hdone₁⟩ := h.cursor
    rw [hc', Option.some.injEq] at hc₁
    subst hc₁
    obtain ⟨c₂, hc₂, hdone₂⟩ := h'.cursor
    refine ⟨c₂, hc₂, fun q => ?_⟩
    rw [hdone₂, hdone₁, or_assoc]
    refine or_congr_right ⟨?_, ?_⟩
    · rintro (⟨v, hv, hf⟩ | ⟨v, hv, hq, hf⟩)
      · exact ⟨v, List.mem_append_left _ hv, hf⟩
      · rcases List.mem_append.mp hv with hv | hv
        · rw [hskip v hv] at hf
          cases hf
        · exact ⟨v, List.mem_append_right _ hv, hq, hf⟩
    · rintro ⟨v, hv, hf⟩
      rcases List.mem_append.mp hv with hv | hv
      · exact Or.inl ⟨v, hv, hf⟩
      · exact Or.inr ⟨v, List.mem_append_right _ hv, hf⟩
  · exact (h'.cursors i hi).trans (h.cursors i hi)
  · obtain ⟨hmsg, hseq⟩ := appendRows_log h.log.1 h.log.2 (ws.filterMap (Judged.copy s.kv a))
    rw [h'.log.1, h'.log.2, hcopies, hmsg, hseq, List.filterMap_append, appendRows_append]
    exact ⟨rfl, rfl⟩
  · exact ⟨h'.topics.1.trans h.topics.1, h'.topics.2.trans h.topics.2⟩

theorem Walked.unique (h : Walked a vs s c out t) (h' : Walked a vs s c out' u) :
    out = out' ∧ DeliversAlike t u := by
  have hslot : ∀ i q, u.leases.get i q = t.leases.get i q ∧
      u.kv.dlv.get ⟨i, q⟩ = t.kv.dlv.get ⟨i, q⟩ := by
    intro i q
    by_cases hv : i = a.subId ∧ ∃ v ∈ vs, v.seq = q
    · obtain ⟨rfl, v, hv, rfl⟩ := hv
      obtain ⟨hl, hd⟩ := h.visited v hv
      obtain ⟨hl', hd'⟩ := h'.visited v hv
      exact ⟨hl'.trans hl.symm, hd'.trans hd.symm⟩
    · have hno : i = a.subId → ∀ v ∈ vs, v.seq ≠ q := fun hi v hvs hq => hv ⟨hi, v, hvs, hq⟩
      obtain ⟨hl, hd⟩ := h.others i q hno
      obtain ⟨hl', hd'⟩ := h'.others i q hno
      exact ⟨hl'.trans hl.symm, hd'.trans hd.symm⟩
  refine ⟨h.out.trans h'.out.symm, fun i q => (hslot i q).1, fun i q => (hslot i q).2,
    fun i q => ?_, h'.log.1.trans h.log.1.symm, h'.log.2.trans h.log.2.symm⟩
  by_cases hi : i = a.subId
  · subst hi
    obtain ⟨c₁, hc₁, hdone₁⟩ := h.cursor
    obtain ⟨c₂, hc₂, hdone₂⟩ := h'.cursor
    have hq : c₂.isDone q = c₁.isDone q := by rw [Bool.eq_iff_iff, hdone₁, hdone₂]
    rw [hc₁, hc₂, Option.map_some, Option.map_some, hq]
  · rw [h.cursors i hi, h'.cursors i hi]

end Sweeps

section Again

variable {a : LeaseArgs} {s t : Engine} {c c' : CursorRecord} {out : List Delivered}
  {rows rows' : List (Nat × MessageRecord)}

theorem Walked.judge_visited (h : Walked a (judgeAll a s c rows) s c out t)
    (hc' : t.kv.cursors.get a.subId = some c') (hheld : a.nowMs < a.deadlineMs)
    (hrows : ∀ x ∈ rows, ∀ y ∈ rows, x.1 = y.1 → x = y) {row : Nat × MessageRecord}
    (hrow : row ∈ rows) : judge a t c' row.1 row.2 = .skip := by
  obtain ⟨c₁, hc₁, hdone⟩ := h.cursor
  rw [hc', Option.some.injEq] at hc₁
  subst hc₁
  have hmem : (⟨row.1, row.2, judge a s c row.1 row.2⟩ : Judged) ∈ judgeAll a s c rows :=
    List.mem_map.mpr ⟨row, hrow, rfl⟩
  obtain ⟨hl, hd⟩ := h.visited _ hmem
  have hfinished : (judge a s c row.1 row.2).finishes = true → c'.isDone row.1 = true :=
    fun hf => (hdone row.1).mpr (Or.inr ⟨_, hmem, rfl, hf⟩)
  cases hv : judge a s c row.1 row.2 with
  | lease n =>
    rw [hv] at hl
    refine judge_skips_held (accepts_of_leased hv) ?_
    rw [Engine.heldAt, hl]
    simpa [Verdict.leaseAfter, newLease] using hheld
  | filtered => exact judge_skips_done (hfinished (by rw [hv]; rfl))
  | forward dlq n => exact judge_skips_done (hfinished (by rw [hv]; rfl))
  | refuse e => exact absurd hv (h.taken _ hmem e)
  | skip =>
    rw [hv] at hl hd
    rw [← hv]
    refine judge_congr ?_ hl hd (h.policy a.subId) fun name => ?_
    · rw [Bool.eq_iff_iff, hdone]
      refine or_iff_left ?_
      rintro ⟨v, hvs, hseq, hf⟩
      obtain ⟨x, hx, rfl⟩ := List.mem_map.mp hvs
      rw [hrows x hx row hrow hseq, hv] at hf
      cases hf
    · unfold TopicStore.get TopicStore.resolveId TopicStore.loadRecord
      rw [h.topics.1, h.topics.2]

theorem Walked.judge_unvisited (h : Walked a (judgeAll a s c rows) s c out t)
    (hc' : t.kv.cursors.get a.subId = some c') {row : Nat × MessageRecord}
    (hrow : ∀ x ∈ rows, x.1 ≠ row.1) : judge a t c' row.1 row.2 = judge a s c row.1 row.2 := by
  obtain ⟨c₁, hc₁, hdone⟩ := h.cursor
  rw [hc', Option.some.injEq] at hc₁
  subst hc₁
  have hno : ∀ v ∈ judgeAll a s c rows, v.seq ≠ row.1 := by
    intro v hv
    obtain ⟨x, hx, rfl⟩ := List.mem_map.mp hv
    exact hrow x hx
  obtain ⟨hl, hd⟩ := h.others a.subId row.1 fun _ => hno
  refine judge_congr ?_ hl hd (h.policy a.subId) fun name => ?_
  · rw [Bool.eq_iff_iff, hdone]
    refine or_iff_left ?_
    rintro ⟨v, hv, hseq, _⟩
    exact hno v hv hseq
  · unfold TopicStore.get TopicStore.resolveId TopicStore.loadRecord
    rw [h.topics.1, h.topics.2]

/-- The second call passes over what the first one visited and goes on from there. -/
theorem Walked.visits_after (h : Walked a (judgeAll a s c rows) s c out t)
    (hc' : t.kv.cursors.get a.subId = some c') (hheld : a.nowMs < a.deadlineMs)
    (hrows : ((rows ++ rows').map Prod.fst).Nodup) {m : Nat} (hm : 0 < m) :
    visits a t c' m (rows ++ rows') = judgeAll a t c' rows ++ visits a s c m rows' ∧
      ∀ v ∈ judgeAll a t c' rows, v.verdict = .skip := by
  rw [List.map_append, List.nodup_append] at hrows
  have hskip : ∀ v ∈ judgeAll a t c' rows, v.verdict = .skip := by
    intro v hv
    obtain ⟨row, hrow, rfl⟩ := List.mem_map.mp hv
    exact h.judge_visited hc' hheld (fun x hx y hy he => List.inj_on_of_nodup_map hrows.1 hx hy he)
      hrow
  have hrest : judgeAll a t c' rows' = judgeAll a s c rows' := by
    refine List.map_congr_left fun row hrow => ?_
    rw [h.judge_unvisited hc' fun x hx he =>
      hrows.2.2 _ (List.mem_map_of_mem hx) _ (List.mem_map_of_mem hrow) he]
  refine ⟨?_, hskip⟩
  unfold visits
  rw [judgeAll, List.map_append, ← judgeAll, ← judgeAll, hrest]
  refine Budget.visited_append_of_free hm fun v hv => ?_
  rw [hskip v hv]
  rfl

/-- The decisions of a call of `n + m` messages, split after the first `n`. -/
theorem visits_split (a : LeaseArgs) (s : Engine) (c : CursorRecord) (n m : Nat)
    (rows : List (Nat × MessageRecord)) :
    ∃ head tail, rows = head ++ tail ∧ visits a s c n rows = judgeAll a s c head ∧
      visits a s c (n + m) rows = judgeAll a s c head ++ visits a s c m tail := by
  have hvisited : ∀ (k : Nat) (l : List (Nat × MessageRecord)), visits a s c k l = judgeAll a s c
      (Budget.visited (fun row => (judge a s c row.1 row.2).leases) k l) := fun k l =>
    Budget.visited_map _ _ k l
  have hpre := Budget.visited_initial (fun row => (judge a s c row.1 row.2).leases) n rows
  refine ⟨_, _, List.prefix_iff_eq_append.mp hpre |>.symm, hvisited n rows, ?_⟩
  rw [hvisited, hvisited, Budget.visited_add, judgeAll, judgeAll, judgeAll, List.map_append]

end Again

section Leases

variable {s t : Engine} {c : CursorRecord} {i topicId : Nat} {n m nowMs secs : Int}

theorem leaseNext_ok_iff_taken (hh : s.kv.Healthy) (hn : 0 < n)
    (hc : s.kv.cursors.get i = some c) :
    (∃ out t, leaseNext i topicId n nowMs secs s = .ok out t) ↔
      ∀ v ∈ planned (leaseArgs s i topicId n nowMs secs) s c, ∀ e, v.verdict ≠ .refuse e := by
  rw [leaseNext_ok_iff hh topicId hn nowMs secs hc, noneUndeliverable_iff]

/-- The second call plans with the arguments of the first, but for its size. -/
theorem Walked.planned_after {a : LeaseArgs} {head tail : List (Nat × MessageRecord)}
    {out : List Delivered} {c' : CursorRecord} (ha : a = leaseArgs s i topicId n nowMs secs)
    (h : Walked a (judgeAll a s c head) s c out t) (hc' : t.kv.cursors.get i = some c')
    (hheld : nowMs < a.deadlineMs) (hrows : scanPrefix s.kv.msg topicId = head ++ tail)
    (hdlq : ∀ row ∈ head, ∀ dlq k, judge a s c row.1 row.2 = .forward dlq k → dlq.id ≠ topicId)
    (hm : 0 < m) :
    leaseArgs t i topicId m nowMs secs = { a with maxMessages := m.toNat } ∧
      planned (leaseArgs t i topicId m nowMs secs) t c' =
        judgeAll a t c' head ++ visits a s c m.toNat tail ∧
      ∀ v ∈ judgeAll a t c' head, v.verdict = .skip := by
  have hid : a.subId = i := by rw [ha]; rfl
  have hargs : leaseArgs t i topicId m nowMs secs = { a with maxMessages := m.toNat } := by
    have hfilter : t.filterOf i = s.filterOf i := hid ▸ h.filter
    rw [ha, leaseArgs, leaseArgs, hfilter]
  have hlog : scanPrefix t.kv.msg topicId = head ++ tail := by
    rw [h.log.1, ← hrows]
    refine scanPrefix_appendRows fun row hrow => ?_
    obtain ⟨v, hv, hcopy⟩ := List.mem_filterMap.mp hrow
    obtain ⟨x, hx, rfl⟩ := List.mem_map.mp hv
    unfold Judged.copy at hcopy
    cases hj : judge a s c x.1 x.2 with
    | forward dlq k =>
      rw [hj] at hcopy
      cases hcopy
      exact hdlq x hx dlq k hj
    | _ =>
      rw [hj] at hcopy
      cases hcopy
  have hnodup : ((head ++ tail).map Prod.fst).Nodup := by
    rw [← hrows]
    exact (scanPrefix_increasing s.kv.msg topicId).imp fun hlt => hlt.ne
  have hnow : a.nowMs < a.deadlineMs := by
    rw [show a.nowMs = nowMs by rw [ha]; rfl]
    exact hheld
  obtain ⟨hvis, hskip⟩ := h.visits_after (hid ▸ hc') hnow hnodup (m := m.toNat) (by omega)
  refine ⟨hargs, ?_, hskip⟩
  rw [planned, hargs, ← hvis, ← hlog]
  rw [show a.topicId = topicId by rw [ha]; rfl]
  rfl

end Leases

section Pulls

variable {s u : Engine} {name : String} {r : SubscriptionRecord} {n nowMs : Int}

/-- The store after the record of a subscription is touched. -/
def touchedKv (kv : Kv) (r : SubscriptionRecord) (nowMs : Int) : Kv :=
  { kv with
    subs := kv.subs.insert r.id { r with lastActivityTsMs := nowMs }
    subNames := kv.subNames.insert r.name r.id
    writes := kv.writes + 1 + 1 }

theorem touch_eq (hh : u.kv.Healthy) (hr : u.kv.subs.get r.id = some r) :
    PubSubService.touch r.id nowMs u = .ok () { u with kv := touchedKv u.kv r nowMs } := by
  refine Ensures.run_eq ?_
  simp only [PubSubService.touch, ensures_ignore, ensures_onKv, SubscriptionStore.touch,
    ensures_bind, ensures_estateGet, SubscriptionStore.load, hr, SubscriptionStore.persist, putSub,
    putSubName]
  refine (ensures_kvWrite_healthy hh).mpr ((ensures_kvWrite_healthy ?_).mpr rfl)
  exact fun k => hh k

theorem pull_eq_of_ok (hsub : SubscriptionStore.get s.kv name = .ok r)
    (hlive : r.detached = false ∧ r.topic ≠ deletedTopic) (hmax : 1 ≤ n ∧ n ≤ 1000)
    {ds : List Delivered}
    (hrun : leaseNext r.id r.topicId n nowMs r.ackDeadlineSecs s = .ok ds u)
    (hh : u.kv.Healthy) (hr : u.kv.subs.get r.id = some r) :
    PubSubService.pull name n nowMs s =
      .ok (ds.map (.ofDelivered r.deadLetterTopic.isSome))
        { u with kv := touchedKv u.kv r nowMs } := by
  have hvalid : validatePullMaxMessages (max n 1) = .ok () := by
    rw [max_eq_left hmax.1]
    exact if_pos hmax
  have hattached : ¬ (r.detached = true ∨ r.topic = deletedTopic) := by
    simp [hlive.1, hlive.2]
  refine Ensures.run_eq ?_
  simp only [PubSubService.pull, PubSubService.pullDelivered, PubSubService.attached, hvalid,
    liftResult, ensures_bind, ensures_pure, ensures_get, hsub, if_neg hattached]
  unfold Ensures
  rw [hrun]
  show Ensures (PubSubService.touch r.id nowMs) u _ _
  unfold Ensures
  rw [touch_eq hh hr]

theorem pull_fails (hsub : SubscriptionStore.get s.kv name = .ok r)
    (hlive : r.detached = false ∧ r.topic ≠ deletedTopic) (hmax : 1 ≤ n ∧ n ≤ 1000)
    (hrun : ¬ ∃ ds u, leaseNext r.id r.topicId n nowMs r.ackDeadlineSecs s = .ok ds u) :
    ∃ e t, PubSubService.pull name n nowMs s = .error e t := by
  cases hp : PubSubService.pull name n nowMs s with
  | ok ms t => exact absurd ((pull_ok_iff_leaseNext hsub hlive hmax).mp ⟨ms, t, hp⟩) hrun
  | error e t => exact ⟨e, t, rfl⟩

theorem get_touched (hr : r.name = name) :
    ∀ kv, SubscriptionStore.get (touchedKv kv r nowMs) name =
      .ok { r with lastActivityTsMs := nowMs } := by
  intro kv
  simp [SubscriptionStore.get, SubscriptionStore.load, touchedKv, hr]

theorem Walked.touched {a : LeaseArgs} {vs : List Judged} {c : CursorRecord}
    {out : List Delivered} (h : Walked a vs s c out u) (hr : u.kv.subs.get r.id = some r)
    (nowMs : Int) : Walked a vs s c out { u with kv := touchedKv u.kv r nowMs } := by
  have hsettings : ∀ i, (u.kv.subs.insert r.id { r with lastActivityTsMs := nowMs }).get i =
      if i = r.id then some { r with lastActivityTsMs := nowMs } else u.kv.subs.get i := by
    intro i
    rw [SortedMap.get_insert]
  have hpolicy : ∀ i, reclaimPolicy (touchedKv u.kv r nowMs) i = reclaimPolicy u.kv i := by
    intro i
    simp only [reclaimPolicy, touchedKv, hsettings]
    split_ifs with hi
    · rw [hi, hr]
    · rfl
  refine ⟨h.out, h.taken, h.visited, h.others, h.cursor, h.cursors, h.log, h.topics,
    fun i => (hpolicy i).trans (h.policy i), ?_, fun k => h.healthy k⟩
  rw [← h.filter, Engine.filterOf, Engine.filterOf]
  simp only [storedFilter, touchedKv, hsettings]
  split_ifs with hi
  · rw [hi, hr]
    rfl
  · rfl

end Pulls

theorem within_final (is : List Input) {id : Nat} {r : SubscriptionRecord}
    (hr : (Run.final step start is).kv.subs.get id = some r) : WithinRanges r := by
  have hall : (Consistent (Run.final step start is).kv ∧ (Run.final step start is).kv.Healthy) ∧
      ∀ id r, (Run.final step start is).kv.subs.get id = some r → WithinRanges r := by
    refine Run.inv_final (C := fun _ => True)
      (P := fun s : Engine => (Consistent s.kv ∧ s.kv.Healthy) ∧
        ∀ id r, s.kv.subs.get id = some r → WithinRanges r) (fun s i h _ => ?_)
      ⟨⟨consistent_empty, fun _ => rfl⟩, fun _ _ h => by cases h⟩ fun _ _ => trivial
    obtain ⟨⟨hc, hh⟩, hin⟩ := h
    have hev := (step_path i hc hh).evolves hc
    refine ⟨⟨hev.consistent, hev.healthy hh⟩, fun id r' hr' => ?_⟩
    have hstep := step_record hc hh i hr'
    generalize i.op = op at hstep
    cases hstep with
    | rewritten hr hw =>
      have h₀ := hin _ _ hr
      cases hw with
      | touch => exact ⟨h₀.ackDeadline, h₀.retention, h₀.minBackoff, h₀.maxBackoff, h₀.attempts⟩
      | update r patch hpatch => exact within_patched h₀ hpatch
      | detach => exact ⟨h₀.ackDeadline, h₀.retention, h₀.minBackoff, h₀.maxBackoff, h₀.attempts⟩
      | pushConfig =>
        exact ⟨h₀.ackDeadline, h₀.retention, h₀.minBackoff, h₀.maxBackoff, h₀.attempts⟩
    | orphaned _ hr =>
      have h₀ := hin _ _ hr
      exact ⟨h₀.ackDeadline, h₀.retention, h₀.minBackoff, h₀.maxBackoff, h₀.attempts⟩
    | created _ hopts _ => exact within_newRecord hopts
  exact hall.2 id r hr

/-- A forwarded message goes to the dead-letter topic that the record names. -/
theorem forward_topic {a : LeaseArgs} {s : Engine} {c : CursorRecord} {q k : Nat}
    {m : MessageRecord} {dlq : TopicRecord} {r : SubscriptionRecord}
    (hr : s.kv.subs.get a.subId = some r) (h : judge a s c q m = .forward dlq k) :
    ∃ topic, r.deadLetterTopic = some topic ∧ TopicStore.get s.kv topic = .ok dlq := by
  have hpolicy : (reclaimPolicy s.kv a.subId).deadLetter.topic = r.deadLetterTopic := by
    simp [reclaimPolicy, hr]
  have hagain : redeliver s.kv (reclaimPolicy s.kv a.subId) m (s.priorAttempts a.subId q) =
      .forward dlq k := by
    unfold judge at h
    split_ifs at h
    exact h
  unfold redeliver at hagain
  rw [hpolicy] at hagain
  split_ifs at hagain with hdead
  cases htopic : r.deadLetterTopic with
  | none => simp [shouldDeadLetter, hpolicy, htopic] at hdead
  | some topic =>
    refine ⟨topic, rfl, ?_⟩
    rw [htopic, Option.getD_some] at hagain
    cases hg : TopicStore.get s.kv topic with
    | error e =>
      rw [hg] at hagain
      cases e <;> cases hagain
    | ok x =>
      simp only [hg] at hagain
      split at hagain
      · cases hagain
        rfl
      · cases hagain

theorem disjoint_decisions {s : Engine} {c : CursorRecord} {topicId : Nat}
    {head tail : List (Nat × MessageRecord)} (hrows : scanPrefix s.kv.msg topicId = head ++ tail)
    (a : LeaseArgs) (m : Nat) :
    ∀ v ∈ judgeAll a s c head, ∀ w ∈ visits a s c m tail, v.seq ≠ w.seq := by
  intro v hv w hw he
  obtain ⟨x, hx, rfl⟩ := List.mem_map.mp hv
  have hy := (mem_visits_seq hw).1
  have hsorted := scanPrefix_increasing s.kv.msg topicId
  rw [hrows, List.map_append, List.pairwise_append] at hsorted
  exact (hsorted.2.2 _ (List.mem_map_of_mem hx) _ (List.mem_map_of_mem hy)).ne he

/-- A client that asks for `n` messages and then for `m` gets what it would get if it had
asked for `n + m`, in the same order, and leaves the same leases, the same finished
messages and the same logs. One large pull fails exactly when one of the two fails. -/
theorem pull_split (is : List Input) {name : String} {r : SubscriptionRecord}
    (hsub : SubscriptionStore.get (Run.final step start is).kv name = .ok r)
    (hlive : r.detached = false ∧ r.topic ≠ deletedTopic)
    (hdlq : ∀ topic dlq, r.deadLetterTopic = some topic →
      TopicStore.get (Run.final step start is).kv topic = .ok dlq → dlq.id ≠ r.topicId)
    {n m nowMs : Int} (hn : 1 ≤ n) (hm : 1 ≤ m) (hsum : n + m ≤ 1000) (hnow : nowMs < i64Max) :
    (∃ ms ms' t t' u,
      PubSubService.pull name n nowMs (Run.final step start is) = .ok ms t ∧
      PubSubService.pull name m nowMs t = .ok ms' t' ∧
      PubSubService.pull name (n + m) nowMs (Run.final step start is) = .ok (ms ++ ms') u ∧
      DeliversAlike t' u) ∨
    (∃ e u, PubSubService.pull name (n + m) nowMs (Run.final step start is) = .error e u) ∧
      ((∃ e t, PubSubService.pull name n nowMs (Run.final step start is) = .error e t) ∨
        ∃ ms t e t', PubSubService.pull name n nowMs (Run.final step start is) = .ok ms t ∧
          PubSubService.pull name m nowMs t = .error e t') := by
  obtain ⟨hcons, hh⟩ := consistent_final is
  obtain ⟨hrec, hname⟩ := hcons.record_of_get hsub
  have hack := (within_final is hrec).ackDeadline
  generalize Run.final step start is = s at hsub hdlq hcons hh hrec ⊢
  obtain ⟨c, hc⟩ := Option.isSome_iff_exists.mp ((hcons.cursors r.id).mpr (by rw [hrec]; rfl))
  have hsame : ∀ {x y : Engine} {k : Int} {ds : List Delivered} {i tid : Nat} {secs : Int},
      leaseNext i tid k nowMs secs x = .ok ds y → y.kv.subs = x.kv.subs := by
    intro x y k ds i tid secs hrun
    have hkeeps : Keeps (OnStore SameSubs) (leaseNext i tid k nowMs secs) :=
      keeps_leaseNext _ _ _ _ _
    exact ((hkeeps x).of_ok hrun).1
  have hsize : (n + m).toNat = n.toNat + m.toNat := by omega
  obtain ⟨head, tail, hrows, hhead, hboth⟩ := visits_split
    (leaseArgs s r.id r.topicId n nowMs r.ackDeadlineSecs) s c n.toNat m.toNat
    (scanPrefix s.kv.msg r.topicId)
  have hplan : planned (leaseArgs s r.id r.topicId n nowMs r.ackDeadlineSecs) s c =
      judgeAll (leaseArgs s r.id r.topicId n nowMs r.ackDeadlineSecs) s c head := hhead
  have hplan' : planned (leaseArgs s r.id r.topicId (n + m) nowMs r.ackDeadlineSecs) s c =
      judgeAll (leaseArgs s r.id r.topicId n nowMs r.ackDeadlineSecs) s c head ++
        visits (leaseArgs s r.id r.topicId n nowMs r.ackDeadlineSecs) s c m.toNat tail := by
    rw [← hboth, ← hsize]
    rfl
  have hfirst := @leaseNext_ok_iff_taken s c r.id r.topicId n nowMs r.ackDeadlineSecs hh
    (by omega) hc
  have hwhole := @leaseNext_ok_iff_taken s c r.id r.topicId (n + m) nowMs r.ackDeadlineSecs hh
    (by omega) hc
  rw [hplan] at hfirst
  rw [hplan'] at hwhole
  by_cases htaken : ∀ v ∈ judgeAll (leaseArgs s r.id r.topicId n nowMs r.ackDeadlineSecs) s c head,
      ∀ e, v.verdict ≠ .refuse e
  · obtain ⟨ds, u, hrun⟩ := hfirst.mpr htaken
    have hwalked := walked_leaseNext hh (by omega) hc hrun
    rw [hplan] at hwalked
    have hu := hsame hrun
    have hr : u.kv.subs.get r.id = some r := by rw [hu, hrec]
    have hpull := pull_eq_of_ok hsub hlive ⟨hn, by omega⟩ hrun hwalked.healthy hr
    have hafter := hwalked.touched hr nowMs
    have hget := @get_touched name r nowMs hname u.kv
    obtain ⟨c', hc', _⟩ := hafter.cursor
    change (touchedKv u.kv r nowMs).cursors.get r.id = some c' at hc'
    have hheld : nowMs < (leaseArgs s r.id r.topicId n nowMs r.ackDeadlineSecs).deadlineMs := by
      have hi : i64Max = 9223372036854775807 := rfl
      simp only [LeaseArgs.deadlineMs, leaseArgs, satAddI64, satI64]
      omega
    have hforward : ∀ row ∈ head, ∀ dlq k,
        judge (leaseArgs s r.id r.topicId n nowMs r.ackDeadlineSecs) s c row.1 row.2 =
          .forward dlq k → dlq.id ≠ r.topicId := by
      intro row _ dlq k hj
      obtain ⟨topic, htopic, hdlq'⟩ := forward_topic (a := leaseArgs s r.id r.topicId n nowMs
        r.ackDeadlineSecs) hrec hj
      exact hdlq topic dlq htopic hdlq'
    obtain ⟨hargs, hplan₂, hskip⟩ := hafter.planned_after (m := m) rfl hc' hheld hrows hforward
      (by omega)
    have hsecond := @leaseNext_ok_iff_taken _ c' r.id r.topicId m nowMs r.ackDeadlineSecs
      hafter.healthy (by omega) hc'
    rw [hplan₂] at hsecond
    by_cases hrest : ∀ v ∈ visits (leaseArgs s r.id r.topicId n nowMs r.ackDeadlineSecs) s c
        m.toNat tail, ∀ e, v.verdict ≠ .refuse e
    · obtain ⟨ds', u', hrun'⟩ := hsecond.mpr fun v hv e => by
        rcases List.mem_append.mp hv with hv | hv
        · rw [hskip v hv]
          exact fun he => by cases he
        · exact hrest v hv e
      obtain ⟨ds₃, u₃, hrun₃⟩ := hwhole.mpr fun v hv e => by
        rcases List.mem_append.mp hv with hv | hv
        · exact htaken v hv e
        · exact hrest v hv e
      have hwalked' := walked_leaseNext hafter.healthy (by omega) hc' hrun'
      rw [hplan₂, hargs] at hwalked'
      have hwalked₃ := walked_leaseNext hh (by omega) hc hrun₃
      rw [hplan'] at hwalked₃
      have hne := disjoint_decisions (s := s) (c := c) hrows
        (leaseArgs s r.id r.topicId n nowMs r.ackDeadlineSecs) m.toNat
      have htwice := hafter.then hc' (hwalked'.resize n.toNat) hskip hne
      have hr' : u'.kv.subs.get r.id = some { r with lastActivityTsMs := nowMs } := by
        rw [hsame hrun']
        exact SortedMap.get_insert_self ..
      have hr₃ : u₃.kv.subs.get r.id = some r := by rw [hsame hrun₃, hrec]
      have hpull' := pull_eq_of_ok (r := { r with lastActivityTsMs := nowMs }) hget hlive
        ⟨hm, by omega⟩ hrun' hwalked'.healthy hr'
      have hpull₃ := pull_eq_of_ok hsub hlive ⟨by omega, hsum⟩ hrun₃ hwalked₃.healthy hr₃
      have hlast := htwice.touched (r := { r with lastActivityTsMs := nowMs }) hr' nowMs
      obtain ⟨hout, halike⟩ := hlast.unique
        ((hwalked₃.resize n.toNat).touched hr₃ nowMs)
      rw [← hout, List.map_append] at hpull₃
      exact Or.inl ⟨_, _, _, _, _, hpull, hpull', hpull₃, halike⟩
    · have hfails : ¬ ∃ ds' u', leaseNext r.id r.topicId m nowMs r.ackDeadlineSecs
          { u with kv := touchedKv u.kv r nowMs } = .ok ds' u' :=
        fun h => hrest fun v hv => hsecond.mp h v (List.mem_append_right _ hv)
      have hfails' : ¬ ∃ ds u, leaseNext r.id r.topicId (n + m) nowMs r.ackDeadlineSecs s =
          .ok ds u := fun h => hrest fun v hv => hwhole.mp h v (List.mem_append_right _ hv)
      obtain ⟨e, t', hbad⟩ := pull_fails (r := { r with lastActivityTsMs := nowMs }) hget hlive ⟨hm, by omega⟩ hfails
      exact Or.inr ⟨pull_fails hsub hlive ⟨by omega, hsum⟩ hfails',
        Or.inr ⟨_, _, e, t', hpull, hbad⟩⟩
  · have hfails : ¬ ∃ ds u, leaseNext r.id r.topicId n nowMs r.ackDeadlineSecs s = .ok ds u :=
      fun h => htaken (hfirst.mp h)
    have hfails' : ¬ ∃ ds u, leaseNext r.id r.topicId (n + m) nowMs r.ackDeadlineSecs s =
        .ok ds u := fun h => htaken fun v hv => hwhole.mp h v (List.mem_append_left _ hv)
    exact Or.inr ⟨pull_fails hsub hlive ⟨by omega, hsum⟩ hfails',
      Or.inl (pull_fails hsub hlive ⟨hn, by omega⟩ hfails)⟩

/-- Three messages, one of them pulled before the other two. -/
theorem pull_split_three : ∃ ms ms' t t' u,
    PubSubService.pull "projects/p/subscriptions/subA" 1 5 (Run.final step start threeMessages) =
      .ok ms t ∧
    PubSubService.pull "projects/p/subscriptions/subA" 2 5 t = .ok ms' t' ∧
    PubSubService.pull "projects/p/subscriptions/subA" 3 5 (Run.final step start threeMessages) =
      .ok (ms ++ ms') u ∧ DeliversAlike t' u := by
  have hfacts : (SubscriptionStore.get (Run.final step start threeMessages).kv
      "projects/p/subscriptions/subA").toOption.any
        (fun r => !r.detached && r.topic ≠ deletedTopic && r.deadLetterTopic.isNone) = true := by
    decide +kernel
  have hreturns : returns (PubSubService.pull "projects/p/subscriptions/subA" 3 5
      (Run.final step start threeMessages)) = true := by decide +kernel
  rw [Option.any_eq_true] at hfacts
  obtain ⟨r, hr, hlive⟩ := hfacts
  simp only [Bool.and_eq_true, Bool.not_eq_true', decide_eq_true_iff, Option.isNone_iff_eq_none]
    at hlive
  have hget : SubscriptionStore.get (Run.final step start threeMessages).kv
      "projects/p/subscriptions/subA" = .ok r := by
    cases hg : SubscriptionStore.get (Run.final step start threeMessages).kv
      "projects/p/subscriptions/subA" with
    | ok r' => rw [hg] at hr; exact congrArg Except.ok (Option.some.inj hr)
    | error e => rw [hg] at hr; cases hr
  have hnone : ∀ topic dlq, r.deadLetterTopic = some topic →
      TopicStore.get (Run.final step start threeMessages).kv topic = .ok dlq →
        dlq.id ≠ r.topicId := by
    intro topic dlq htopic
    rw [hlive.2] at htopic
    cases htopic
  have hnow : (5 : Int) < i64Max := by decide
  have hsplit := pull_split threeMessages hget hlive.1 hnone (n := 1) (m := 2)
    (by decide) (by decide) (by decide) hnow
  rcases hsplit with h | ⟨⟨e, u, herr⟩, _⟩
  · exact h
  · rw [show (1 : Int) + 2 = 3 from rfl] at herr
    rw [herr] at hreturns
    cases hreturns

end OpenPubusb
