import OpenPubusb.Isolation
import OpenPubusb.LogSteps
import OpenPubusb.PublishOrder

/-! The done set of a cursor above its floor. A message leaves it when the floor
passes, and the floor waits for the first open message; so it waits for ever when
that message was removed from the log. -/

namespace OpenPubusb

/-- Above its floor a cursor holds nothing but messages that wait for an open one
which is in the log. -/
def CursorsCompact (kv : Kv) : Prop :=
  ∀ subId c r, kv.cursors.get subId = some c → kv.subs.get subId = some r →
    ∀ n ∈ c.ackedAboveFloor, ∃ m, c.ackedFloor < m ∧ m < n ∧ c.isDone m = false ∧
      (kv.msg.get ⟨r.topicId, m⟩).isSome

/-- The messages that the cursor has open are in the log, or still to be published. -/
def Kv.Opens (kv : Kv) (topicId : Nat) (c : CursorRecord) : Prop :=
  ∀ q, c.isDone q = false → kv.present topicId q = true

/-- The step removes no message that a cursor has open, installs no cursor with a
removed message open, and its ids name leases of the subscription it is sent to. -/
structure KeepsOpen (tr : Transition) : Prop where
  swept : tr.input.op = .sweepRetention → ∀ i c r q m, tr.pre.kv.cursors.get i = some c →
    tr.pre.kv.subs.get i = some r → tr.pre.kv.msg.get ⟨r.topicId, q⟩ = some m →
    m.expireAtMs ≤ tr.input.nowMs → c.isDone q = true
  sought : ∀ i c r, seekTarget tr.pre.kv tr.input.op = some (i, c) →
    tr.pre.kv.subs.get i = some r → tr.pre.kv.Opens r.topicId c
  ack : NoForeignAck tr.pre tr.input.op
  modify : NoForeignModify tr.pre tr.input.op

/-- A cursor that messages of the topic were marked done in. -/
structure Kv.Tidy (kv : Kv) (topicId : Nat) (c : CursorRecord) : Prop where
  normal : c.Normal
  bounded : ∀ n ∈ c.ackedAboveFloor, n ≤ TopicStore.currentTail kv topicId

theorem tidy_fresh (kv : Kv) (topicId attachSeq floor : Nat) :
    kv.Tidy topicId (.fresh attachSeq floor) :=
  ⟨fun _ h => absurd h (Finset.notMem_empty _), fun _ h => absurd h (Finset.notMem_empty _)⟩

structure Tracks (s : Engine) : Prop where
  wf : s.WellFormed
  consistent : Consistent s.kv
  tidy : ∀ {i c r}, s.kv.cursors.get i = some c → s.kv.subs.get i = some r →
    s.kv.Tidy r.topicId c
  opens : ∀ {i c r}, s.kv.cursors.get i = some c → s.kv.subs.get i = some r →
    s.kv.Opens r.topicId c
  snap : ∀ {j x}, s.kv.snaps.get j = some x → s.kv.Tidy x.topicId x.cursor
  remembered : ∀ i q, (s.slot i q).Remembered → i ≤ s.kv.counter ∧
    ∀ r, s.kv.subs.get i = some r → q ≤ TopicStore.currentTail s.kv r.topicId

theorem Tracks.compact {s : Engine} (h : Tracks s) : CursorsCompact s.kv := by
  intro subId c r hc hr n hn
  have hlt := (h.tidy hc hr).normal n hn
  have htail := (h.tidy hc hr).bounded n hn
  have hopen : c.isDone (c.ackedFloor + 1) = false := by
    rw [Bool.eq_false_iff]
    intro hd
    rcases CursorRecord.isDone_iff.mp hd with hle | hmem
    · omega
    · exact lt_irrefl _ ((h.tidy hc hr).normal _ hmem)
  have hpres := h.opens hc hr _ hopen
  simp only [Kv.present, Bool.or_eq_true, decide_eq_true_eq] at hpres
  exact ⟨c.ackedFloor + 1, by omega, hlt, hopen, hpres.resolve_left (by omega)⟩

section Changes

variable {op : Op} {kv kv' kv'' : Kv}

/-- Cursors only moved on, in a call that moves cursors, and snapshots stayed. -/
structure Kept (op : Op) (kv kv' : Kv) : Prop where
  cursor : ∀ {i c'}, kv'.cursors.get i = some c' → ∃ c, kv.cursors.get i = some c ∧
    c.Advanced c' ∧ (op.isLease = false → op.isAck = false → c' = c)
  snap : ∀ {j x'}, kv'.snaps.get j = some x' → ∃ x, kv.snaps.get j = some x ∧
    x'.topicId = x.topicId ∧ x'.cursor = x.cursor

theorem kept_of_eq (hc : kv'.cursors = kv.cursors) (hs : kv'.snaps = kv.snaps) :
    Kept op kv kv' := by
  refine ⟨fun {i c'} h => ?_, fun {j x'} h => ?_⟩
  · rw [hc] at h
    exact ⟨c', h, .refl c', fun _ _ => rfl⟩
  · rw [hs] at h
    exact ⟨x', h, rfl, rfl⟩

theorem Kept.trans (h : Kept op kv kv') (h' : Kept op kv' kv'') : Kept op kv kv'' := by
  refine ⟨fun {i c''} hc'' => ?_, fun {j x''} hx'' => ?_⟩
  · obtain ⟨c', hc', ha', he'⟩ := h'.cursor hc''
    obtain ⟨c, hc, ha, he⟩ := h.cursor hc'
    exact ⟨c, hc, ha.trans ha', fun hl hk => (he' hl hk).trans (he hl hk)⟩
  · obtain ⟨x', hx', ht', hc'⟩ := h'.snap hx''
    obtain ⟨x, hx, ht, hc⟩ := h.snap hx'
    exact ⟨x, hx, ht'.trans ht, hc'.trans hc⟩

theorem Change.kept (h : Change op kv kv') (hs : op.isSingle = false) : Kept op kv kv' := by
  cases h with
  | advance w hop hcur ha =>
    refine ⟨fun {i c'} hc' => ?_, fun {j x'} hx => ⟨x', hx, rfl, rfl⟩⟩
    rw [SortedMap.get_insert] at hc'
    split_ifs at hc' with hi
    · cases hc'
      refine ⟨_, hi ▸ hcur, ha, fun hl hk => ?_⟩
      rw [hl, hk] at hop
      exact absurd hop (by decide)
    · exact ⟨c', hc', .refl c', fun _ _ => rfl⟩
  | seek dlv w hseek =>
    rw [seekTarget_eq_none hs] at hseek
    cases hseek
  | createSubscription => cases hs
  | createSnapshot => cases hs
  | deleteSubscription =>
    refine ⟨fun {i c'} hc' => ?_, fun {j x'} hx => ⟨x', hx, rfl, rfl⟩⟩
    rw [SortedMap.get_erase] at hc'
    split_ifs at hc'
    exact ⟨c', hc', .refl c', fun _ _ => rfl⟩
  | updateSnapshot w hr _ _ ht hcur =>
    refine ⟨fun {i c'} hc' => ⟨c', hc', .refl c', fun _ _ => rfl⟩, fun {j x'} hx => ?_⟩
    rw [SortedMap.get_insert] at hx
    split_ifs at hx with hj
    · cases hx
      exact ⟨_, hj ▸ hr, ht, hcur⟩
    · exact ⟨x', hx, rfl, rfl⟩
  | deleteSnapshot =>
    refine ⟨fun {i c'} hc' => ⟨c', hc', .refl c', fun _ _ => rfl⟩, fun {j x'} hx => ?_⟩
    rw [SortedMap.get_erase] at hx
    split_ifs at hx
    exact ⟨x', hx, rfl, rfl⟩
  | _ => exact kept_of_eq rfl rfl

theorem Path.kept (h : Path op kv kv') (hs : op.isSingle = false) : Kept op kv kv' := by
  induction h with
  | refl => exact kept_of_eq rfl rfl
  | tail _ hch ih => exact ih.trans (hch.kept hs)

end Changes

section Steps

variable {s : Engine} {i : Input}

theorem Op.not_single {op : Op} (h : op.isLease = true ∨ op.isAck = true) :
    op.isSingle = false := by
  cases op with
  | pull => rfl
  | leaseForStream => rfl
  | acknowledge => rfl
  | streamAcknowledge => rfl
  | _ => rcases h with h | h <;> cases h

theorem Change.shift {op : Op} {kv kv' : Kv} (h : Change op kv kv') (hop : op.isSingle = true)
    {j : Nat} {c' : CursorRecord} (hc' : kv'.cursors.get j = some c') :
    kv.cursors.get j = some c' ∨ seekTarget kv op = some (j, c') ∨
      ∃ r, kv'.subs.get j = some r ∧ c' = .fresh (TopicStore.currentTail kv r.topicId)
        (TopicStore.currentTail kv r.topicId) := by
  cases h with
  | advance w hmove _ _ =>
    rw [Op.not_single hmove] at hop
    cases hop
  | seek dlv w hseek =>
    rw [SortedMap.get_insert] at hc'
    split_ifs at hc' with hj
    · cases hc'
      exact Or.inr (Or.inl (hj ▸ hseek))
    · exact Or.inl hc'
  | createSubscription =>
    rw [SortedMap.get_insert] at hc'
    split_ifs at hc' with hj
    · cases hc'
      refine Or.inr (Or.inr ?_)
      rw [hj]
      exact ⟨_, SortedMap.get_insert_self .., rfl⟩
    · exact Or.inl hc'
  | deleteSubscription =>
    rw [SortedMap.get_erase] at hc'
    split_ifs at hc'
    exact Or.inl hc'
  | _ => exact Or.inl hc'

theorem step_cursor (hc : Consistent s.kv) (hh : s.kv.Healthy) {j : Nat} {c' : CursorRecord}
    (hc' : (step s i).2.kv.cursors.get j = some c') :
    (∃ c, s.kv.cursors.get j = some c ∧ c.Advanced c' ∧
        (i.op.isLease = false → i.op.isAck = false → c' = c)) ∨
      seekTarget s.kv i.op = some (j, c') ∨
      i.op.isSingle = true ∧ ∃ r, (step s i).2.kv.subs.get j = some r ∧
        c' = .fresh (TopicStore.currentTail s.kv r.topicId)
          (TopicStore.currentTail s.kv r.topicId) := by
  cases hsingle : i.op.isSingle with
  | false => exact Or.inl (((step_path i hc hh).kept hsingle).cursor hc')
  | true =>
    have hone := step_once hc hh hsingle
    revert hone hc'
    generalize (step s i).2.kv = kv'
    intro hc' hone
    cases hone with
    | refl => exact Or.inl ⟨c', hc', .refl c', fun _ _ => rfl⟩
    | single hch =>
      rcases hch.shift hsingle hc' with hold | hnew
      · exact Or.inl ⟨c', hold, .refl c', fun _ _ => rfl⟩
      · exact Or.inr (hnew.imp id fun h => ⟨rfl, h⟩)

/-- A snapshot that is there was there, or holds the cursor of a subscription. -/
theorem Change.snapped {op : Op} {kv kv' : Kv} (h : Change op kv kv') (hc : Consistent kv)
    {j : Nat} {x' : SnapshotRecord} (hx' : kv'.snaps.get j = some x') :
    (∃ x, kv.snaps.get j = some x ∧ x'.topicId = x.topicId ∧ x'.cursor = x.cursor) ∨
      ∃ id r, kv.subs.get id = some r ∧ x'.topicId = r.topicId ∧
        kv.cursors.get id = some x'.cursor := by
  cases h with
  | createSnapshot w _ hsub ht hcur _ =>
    rw [SortedMap.get_insert] at hx'
    split_ifs at hx'
    · cases hx'
      obtain ⟨id, _, hs⟩ := get_eq_ok hsub
      rw [(hc.subs.record hs).2] at hcur
      exact Or.inr ⟨id, _, hs, ht, hcur⟩
    · exact Or.inl ⟨x', hx', rfl, rfl⟩
  | updateSnapshot w hr _ _ ht hcur =>
    rw [SortedMap.get_insert] at hx'
    split_ifs at hx' with hj
    · cases hx'
      exact Or.inl ⟨_, hj ▸ hr, ht, hcur⟩
    · exact Or.inl ⟨x', hx', rfl, rfl⟩
  | deleteSnapshot =>
    rw [SortedMap.get_erase] at hx'
    split_ifs at hx'
    exact Or.inl ⟨x', hx', rfl, rfl⟩
  | _ => exact Or.inl ⟨x', hx', rfl, rfl⟩

theorem step_snap (hc : Consistent s.kv) (hh : s.kv.Healthy) {j : Nat} {x' : SnapshotRecord}
    (hx' : (step s i).2.kv.snaps.get j = some x') :
    (∃ x, s.kv.snaps.get j = some x ∧ x'.topicId = x.topicId ∧ x'.cursor = x.cursor) ∨
      ∃ id r, s.kv.subs.get id = some r ∧ x'.topicId = r.topicId ∧
        s.kv.cursors.get id = some x'.cursor := by
  cases hsingle : i.op.isSingle with
  | false => exact Or.inl (((step_path i hc hh).kept hsingle).snap hx')
  | true =>
    have hone := step_once hc hh hsingle
    revert hone hx'
    generalize (step s i).2.kv = kv'
    intro hx' hone
    cases hone with
    | refl => exact Or.inl ⟨x', hx', rfl, rfl⟩
    | single hch => exact hch.snapped hc hx'

/-- A lease call on no subscription, and an acknowledgement sent to none, fail at
once. -/
theorem step_eq_of_no_call (hop : i.op.isLease = true ∧ leaseCall s i.op = none ∨
    i.op.isAck = true ∧ ackCall s.kv i.op = none) : (step s i).2 = s := by
  refine ensures_step (P := fun t => t = s) ?_
  cases hi : i.op with
  | pull name n =>
    rw [hi] at hop
    have hnone := (hop.resolve_right fun h => by cases h.1).2
    simp only [perform, PubSubService.pullDelivered, PubSubService.attached, Hoare.ensures_bind,
      Hoare.ensures_get, ensures_liftResult, Hoare.ensures_ite, Hoare.ensures_throw]
    refine ⟨fun _ _ => ⟨fun sub hsub => ?_, fun _ _ => trivial⟩, fun _ _ => trivial⟩
    rw [leaseCall, hsub] at hnone
    cases hnone
  | leaseForStream sid =>
    rw [hi] at hop
    have hnone := (hop.resolve_right fun h => by cases h.1).2
    simp only [perform, leaseForStream, Hoare.ensures_bind, Hoare.ensures_get]
    rw [Option.map_eq_none_iff.mp hnone]
    exact rfl
  | acknowledge name ids =>
    rw [hi] at hop
    have hnone := (hop.resolve_left fun h => by cases h.1).2
    simp only [perform, PubSubService.acknowledge, Hoare.ensures_bind, Hoare.ensures_get,
      ensures_liftResult]
    refine ⟨fun sub hsub => ?_, fun _ _ => trivial⟩
    rw [ackCall, subscriptionId, hsub] at hnone
    cases hnone
  | streamAcknowledge sid subId ids =>
    rw [hi] at hop
    cases (hop.resolve_left fun h => by cases h.1).2
  | _ =>
    rw [hi] at hop
    rcases hop with hop | hop
    · cases hop.1
    · cases hop.1

theorem Leased.closed_row {subId q : Nat} {ds : List Delivered} {a : LeaseArgs} {u t : Engine}
    (h : Leased s i subId ds a u t) (hp : s.kv.pending subId q = true)
    (hp' : t.kv.pending subId q = false) :
    ∃ m, (q, m) ∈ scanPrefix s.kv.msg a.topicId := by
  have hsub := h.sub
  subst hsub
  obtain ⟨e, _, hslot, ho⟩ := h.done.slots q
  have hpend : (e.apply (s.slot a.subId q)).pending = false := by
    rw [← hslot, ← h.slot_eq]
    exact hp'
  have hopen : (s.slot a.subId q).pending ≠ false := by simp [Engine.slot, hp]
  cases e with
  | idle => exact absurd hpend hopen
  | granted r => exact absurd hpend hopen
  | forwarded saved =>
    obtain ⟨_, _, m, _, hm, _⟩ := ho
    exact ⟨m, hm⟩
  | retired dropped =>
    obtain ⟨_, ⟨m, hm, _⟩, _⟩ := ho
    exact ⟨m, hm⟩
  | _ => exact ho.elim

theorem Tracks.newly (h : Tracks s) (hack : NoForeignAck s i.op) {j q : Nat}
    {c c' : CursorRecord} {r : SubscriptionRecord} (hr : s.kv.subs.get j = some r)
    (hc : s.kv.cursors.get j = some c) (hc' : (step s i).2.kv.cursors.get j = some c')
    (hmove : i.op.isLease = true ∨ i.op.isAck = true)
    (hq : c.isDone q = false) (hq' : c'.isDone q = true) :
    q ≤ TopicStore.currentTail s.kv r.topicId := by
  have hsame : ¬ (step s i).2.kv.cursors.get j = s.kv.cursors.get j := fun he => by
    rw [hc', hc, Option.some.injEq] at he
    rw [he, hq] at hq'
    cases hq'
  rcases hmove with hlease | hisack
  · cases hcall : leaseCall s i.op with
    | none => exact absurd (by rw [step_eq_of_no_call (Or.inl ⟨hlease, hcall⟩)]) hsame
    | some call =>
      obtain ⟨j₀, secs⟩ := call
      rcases step_leaseCall h.wf hcall with ⟨ds, a, u, hl⟩ | he
      · have hsub := hl.sub
        by_cases hj : j = j₀
        · subst hj
          have hp : s.kv.pending j q = true := Kv.pending_iff.mpr ⟨c, r, hc, hr, hq, by
            simpa [Kv.present] using h.opens hc hr q hq⟩
          have hp' : (step s i).2.kv.pending j q = false := by
            rw [Kv.pending, hc']
            cases (step s i).2.kv.subs.get j <;> simp [hq']
          obtain ⟨m, hm⟩ := hl.closed_row hp hp'
          rw [hl.topic r hr]
          exact h.wf.kv.log (mem_scanPrefix.mp hm)
        · refine absurd ?_ hsame
          rw [hl.kv.cursors]
          exact hl.done.cursors j (hsub ▸ hj)
      · exact absurd (by rw [he]) hsame
  · cases hcall : ackCall s.kv i.op with
    | none => exact absurd (by rw [step_eq_of_no_call (Or.inr ⟨hisack, hcall⟩)]) hsame
    | some call =>
      obtain ⟨j₀, ids⟩ := call
      have hkept := ensures_step (P := fun t => AckKept j₀ ids s t) (perform_ackKept h.wf hcall)
      have hiso := hkept.1 fun a q ha hhit => by
        obtain ⟨x, hx, hn⟩ := hhit
        exact ha (hack j₀ ids hcall x hx a q hn)
      by_cases hj : j = j₀
      · subst hj
        by_cases hhit : Hit s.leases ids j q
        · obtain ⟨_, _, l, hl, _⟩ := hhit
          refine (h.remembered j q (Or.inl ?_)).2 r hr
          simp [Engine.slot, hl]
        · have hdone := (hiso.own q hhit).2.2
          rw [hc', hc, Option.map_some, Option.map_some, hq, hq'] at hdone
          cases hdone
      · exact absurd (hiso.cursors j hj) hsame

theorem Tracks.seekTarget_tidy (h : Tracks s) {op : Op} {j : Nat} {c : CursorRecord}
    {r : SubscriptionRecord} (hseek : seekTarget s.kv op = some (j, c))
    (hr : s.kv.subs.get j = some r) : s.kv.Tidy r.topicId c := by
  obtain ⟨_, sub, hsub, rfl, ⟨_, snap, hsnap, ht, rfl⟩ | ⟨_, _, _, rfl⟩⟩ := seekTarget_cases hseek
  · obtain ⟨_, _, hs⟩ := snapshotGet_eq_ok hsnap
    rw [h.wf.get_ok hsub, Option.some.injEq] at hr
    rw [← hr, ← ht]
    exact h.snap hs
  · exact tidy_fresh ..

theorem Tracks.step_opens (h : Tracks s) (hk : KeepsOpen (Run.transition step s i)) {j : Nat}
    {c : CursorRecord} {r : SubscriptionRecord} (hc : s.kv.cursors.get j = some c)
    (hr : s.kv.subs.get j = some r) : (step s i).2.kv.Opens r.topicId c := by
  intro q hq
  have hold := h.opens hc hr q hq
  by_cases hop : i.op = .sweepRetention
  · obtain ⟨kv₁, hexp, hswept, hprune, _⟩ := step_swept h.wf h.consistent hop
    have htail : TopicStore.currentTail (step s i).2.kv r.topicId =
        TopicStore.currentTail s.kv r.topicId := by
      rw [TopicStore.currentTail, TopicStore.currentTail, hprune.topicSeq, hexp.topicSeq]
    rw [Kv.present, Bool.or_eq_true] at hold ⊢
    rw [htail, hprune.msg]
    refine hold.imp id fun hold => ?_
    obtain ⟨m, hm⟩ := Option.isSome_iff_exists.mp hold
    rcases hswept.msg hm with hm' | ⟨_, he⟩
    · rw [hm']
      rfl
    · have hdone := hk.swept hop j c r q m hc hr hm he
      rw [hq] at hdone
      cases hdone
  · exact (step_grown h.wf h.consistent hop).present hold

theorem step_tail (hwf : s.WellFormed) (hc : Consistent s.kv) (i : Input) (topicId : Nat) :
    TopicStore.currentTail s.kv topicId ≤ TopicStore.currentTail (step s i).2.kv topicId := by
  by_cases hop : i.op = .sweepRetention
  · obtain ⟨kv₁, hexp, _, hprune, _⟩ := step_swept hwf hc hop
    rw [TopicStore.currentTail, TopicStore.currentTail, hprune.topicSeq, hexp.topicSeq]
  · exact (step_grown hwf hc hop).tail topicId

theorem Kv.Tidy.grow {kv kv' : Kv} {topicId : Nat} {c : CursorRecord} (h : kv.Tidy topicId c)
    (ht : TopicStore.currentTail kv topicId ≤ TopicStore.currentTail kv' topicId) :
    kv'.Tidy topicId c :=
  ⟨h.normal, fun n hn => (h.bounded n hn).trans ht⟩

theorem Kv.Tidy.advance {kv : Kv} {topicId : Nat} {c c' : CursorRecord} (h : kv.Tidy topicId c)
    (ha : c.Advanced c') (hnew : ∀ q, c.isDone q = false → c'.isDone q = true →
      q ≤ TopicStore.currentTail kv topicId) : kv.Tidy topicId c' := by
  refine ⟨ha.normal h.normal, fun n hn => ?_⟩
  have hgt := ha.normal h.normal n hn
  have hfloor := ha.floor
  cases hd : c.isDone n with
  | false => exact hnew n hd (CursorRecord.isDone_iff.mpr (Or.inr hn))
  | true =>
    rcases CursorRecord.isDone_iff.mp hd with hle | hmem
    · omega
    · exact h.bounded n hmem

theorem Tracks.step (h : Tracks s) (hk : KeepsOpen (Run.transition OpenPubusb.step s i)) :
    Tracks (OpenPubusb.step s i).2 := by
  have hh := h.wf.healthy
  have href : Refines s i (OpenPubusb.step s i).1 (OpenPubusb.step s i).2 :=
    step_refines h.wf hk.modify
  have hev := (step_path i h.consistent hh).evolves h.consistent
  have htail := step_tail h.wf h.consistent i
  have hrec : ∀ {j r'}, j ≤ s.kv.counter → (OpenPubusb.step s i).2.kv.subs.get j = some r' →
      ∃ r, s.kv.subs.get j = some r ∧ r'.topicId = r.topicId := by
    intro j r' hj hr'
    obtain ⟨r, hr, hid, _⟩ := href.record hj hr'
    exact ⟨r, hr, congrArg (fun k => k.2.2.1) hid⟩
  have hold : ∀ {j c}, s.kv.cursors.get j = some c → j ≤ s.kv.counter := by
    intro j c hc
    refine h.consistent.sub_known ?_
    rw [← h.consistent.cursors, hc]
    rfl
  have hseek : ∀ {j c}, seekTarget s.kv i.op = some (j, c) → i.op ≠ .sweepRetention := by
    intro j c hs hop
    rw [hop] at hs
    cases hs
  refine ⟨href.wf, hev.consistent, fun {j c' r'} hc' hr' => ?_, fun {j c' r'} hc' hr' => ?_,
    fun {j x'} hx' => ?_, fun j q hrem => ?_⟩
  · rcases step_cursor h.consistent hh hc' with ⟨c, hc, ha, heq⟩ | hs | ⟨_, r, _, rfl⟩
    · obtain ⟨r, hr, ht⟩ := hrec (hold hc) hr'
      rw [ht]
      refine ((h.tidy hc hr).advance ha fun q hq hq' => ?_).grow (htail _)
      by_cases hmove : i.op.isLease = true ∨ i.op.isAck = true
      · exact h.newly hk.ack hr hc hc' hmove hq hq'
      · rw [not_or, Bool.not_eq_true, Bool.not_eq_true] at hmove
        rw [heq hmove.1 hmove.2, hq] at hq'
        cases hq'
    · obtain ⟨c, hc⟩ := Option.isSome_iff_exists.mp (seekTarget_cursor h.consistent hs)
      obtain ⟨r, hr, ht⟩ := hrec (hold hc) hr'
      rw [ht]
      exact (h.seekTarget_tidy hs hr).grow (htail _)
    · exact tidy_fresh ..
  · rcases step_cursor h.consistent hh hc' with ⟨c, hc, ha, _⟩ | hs | ⟨hsingle, r, hr, rfl⟩
    · obtain ⟨r, hr, ht⟩ := hrec (hold hc) hr'
      rw [ht]
      intro q hq
      refine h.step_opens hk hc hr q ?_
      rw [Bool.eq_false_iff]
      intro hd
      rw [ha.done q hd] at hq
      cases hq
    · obtain ⟨c, hc⟩ := Option.isSome_iff_exists.mp (seekTarget_cursor h.consistent hs)
      obtain ⟨r, hr, ht⟩ := hrec (hold hc) hr'
      rw [ht]
      intro q hq
      exact (step_grown h.wf h.consistent (hseek hs)).present (hk.sought j c' r hs hr q hq)
    · rw [hr'] at hr
      cases hr
      intro q hq
      have hlt : TopicStore.currentTail s.kv r'.topicId < q := by
        by_contra hle
        rw [(CursorRecord.fresh_isDone _ _ _).mpr (not_lt.mp hle)] at hq
        cases hq
      refine (step_grown h.wf h.consistent fun hop => ?_).present ?_
      · rw [hop] at hsingle
        cases hsingle
      · simp [Kv.present, hlt]
  · rcases step_snap h.consistent hh hx' with ⟨x, hx, ht, hc⟩ | ⟨id, r, hr, ht, hc⟩
    · rw [ht, hc]
      exact (h.snap hx).grow (htail _)
    · rw [ht]
      exact (h.tidy hc hr).grow (htail _)
  · obtain ⟨e, he⟩ := href.slots j q
    rw [he.slot] at hrem
    rcases Effect.remembered_of_apply hrem with hrem | ⟨r, rfl⟩
    · obtain ⟨hj, hq⟩ := h.remembered j q hrem
      refine ⟨hj.trans hev.counter, fun r' hr' => ?_⟩
      obtain ⟨r, hr, ht⟩ := hrec hj hr'
      rw [ht]
      exact (hq r hr).trans (htail _)
    · obtain ⟨_, _, _, _, x, m, hx, hm⟩ := he.cause
      have hj : j ≤ s.kv.counter := h.consistent.sub_known (by rw [hx]; rfl)
      refine ⟨hj.trans hev.counter, fun r' hr' => ?_⟩
      obtain ⟨r, hr, ht⟩ := hrec hj hr'
      rw [hx] at hr
      cases hr
      rw [ht]
      exact (h.wf.kv.log hm).trans (htail _)

theorem tracks_start : Tracks start where
  wf := wellFormed_start
  consistent := consistent_empty
  tidy h := by cases h
  opens h := by cases h
  snap h := by cases h
  remembered _ _ h := absurd rfl (h.elim id id)

end Steps

theorem cursors_compact (is : List Input) (h : ∀ tr ∈ history is, KeepsOpen tr) :
    CursorsCompact (Run.final step start is).kv := by
  have htracks : Tracks (Run.final step start is) :=
    Run.inv_final (P := Tracks) (C := KeepsOpen) (fun _ _ ht hk => ht.step hk) tracks_start h
  exact htracks.compact

/-- What `KeepsOpen` asks for, as a check for runs without a seek. -/
def keepsOpenCheck (tr : Transition) : Bool :=
  (seekTarget tr.pre.kv tr.input.op).isNone && ownIds tr.pre.kv tr.input.op &&
    tr.pre.kv.msg.entries.all fun e => e.2.expireAtMs > tr.input.nowMs ||
      tr.pre.kv.cursors.entries.all fun c => c.2.isDone e.1.seq

theorem KeepsOpen.of_check {tr : Transition} (h : keepsOpenCheck tr = true) : KeepsOpen tr := by
  simp only [keepsOpenCheck, Bool.and_eq_true] at h
  obtain ⟨⟨hseek, hown⟩, hmsgs⟩ := h
  refine ⟨fun _ i c r q m hc _ hm hexp => ?_, fun i c r hs => ?_, (OwnIds.of_check hown).ack,
    (OwnIds.of_check hown).modify⟩
  · have hrow := List.all_eq_true.mp hmsgs _ (SortedMap.mem_entries.mpr hm)
    rcases Bool.or_eq_true_iff.mp hrow with hlate | hdone
    · exact absurd (of_decide_eq_true hlate) (not_lt.mpr hexp)
    · exact List.all_eq_true.mp hdone _ (SortedMap.mem_entries.mpr hc)
  · rw [hs] at hseek
    cases hseek

def ackA (nowMs : Int) (seqs : List Nat) : Input :=
  ⟨nowMs, .acknowledge "projects/p/subscriptions/subA" (seqs.map fun q => encodeAckId 2 q 1)⟩

/-- Two messages, published one second apart, of which the second is acknowledged. -/
def ackedBehind : List Input :=
  setup {} ++ [{ publishOne with nowMs := 1000 }, pullAll 1000, ackA 1000 [2]]

/-- The second message waits for the first, which is in the log. -/
theorem cursors_compact_of_acked_behind :
    (Run.final step start (ackedBehind ++ [⟨2000, .sweepRetention⟩])).kv.cursors.get 2 =
        some ⟨0, 0, {2}⟩ ∧
      CursorsCompact (Run.final step start (ackedBehind ++ [⟨2000, .sweepRetention⟩])).kv := by
  have hfacts : (Run.final step start (ackedBehind ++ [⟨2000, .sweepRetention⟩])).kv.cursors.get 2 =
        some ⟨0, 0, {2}⟩ ∧
      (history (ackedBehind ++ [⟨2000, .sweepRetention⟩])).all keepsOpenCheck = true := by
    decide +kernel
  exact ⟨hfacts.1, cursors_compact _ fun tr htr => .of_check (List.all_eq_true.mp hfacts.2 tr htr)⟩

/-- The sweep removes the first message, and the second waits for ever. -/
theorem expired_message_blocks_floor :
    ¬ CursorsCompact
      (Run.final step start (ackedBehind ++ [⟨2678400000, .sweepRetention⟩])).kv := by
  intro h
  have hfacts : (Run.final step start
        (ackedBehind ++ [⟨2678400000, .sweepRetention⟩])).kv.cursors.get 2 = some ⟨0, 0, {2}⟩ ∧
      ((Run.final step start (ackedBehind ++ [⟨2678400000, .sweepRetention⟩])).kv.subs.get 2).map
        SubscriptionRecord.topicId = some 1 ∧
      (Run.final step start (ackedBehind ++ [⟨2678400000, .sweepRetention⟩])).kv.msg.keys =
        [⟨1, 2⟩] := by
    decide +kernel
  generalize (Run.final step start (ackedBehind ++ [⟨2678400000, .sweepRetention⟩])).kv = kv
    at h hfacts
  obtain ⟨hc, hsub, hkeys⟩ := hfacts
  obtain ⟨r, hr, ht⟩ := Option.map_eq_some_iff.mp hsub
  obtain ⟨m, hlo, hhi, _, hm⟩ := h 2 _ r hc hr 2 (Finset.mem_singleton_self 2)
  obtain ⟨x, hx⟩ := Option.isSome_iff_exists.mp hm
  have hkey : (⟨r.topicId, m⟩ : RowKey) ∈ [(⟨1, 2⟩ : RowKey)] := by
    rw [← hkeys]
    exact List.mem_map_of_mem (SortedMap.mem_entries.mpr hx)
  rw [List.mem_singleton, RowKey.mk.injEq] at hkey
  omega

end OpenPubusb
