import OpenPubusb.LogRows

/-! What the creation of a subscription, its deletion and the retention sweep do
to the messages a subscription has pending. -/

namespace OpenPubusb

open Hoare

/-- The message may still be delivered on the subscription: the cursor has it
open and its row was not swept away. -/
def Kv.pending (kv : Kv) (subId seq : Nat) : Bool :=
  match kv.cursors.get subId, kv.subs.get subId with
  | some c, some r => !c.isDone seq && kv.present r.topicId seq
  | _, _ => false

theorem Kv.pending_iff {kv : Kv} {subId seq : Nat} :
    kv.pending subId seq = true ↔ ∃ c r, kv.cursors.get subId = some c ∧
      kv.subs.get subId = some r ∧ c.isDone seq = false ∧
      (TopicStore.currentTail kv r.topicId < seq ∨
        (kv.msg.get ⟨r.topicId, seq⟩).isSome = true) := by
  unfold pending
  cases kv.cursors.get subId <;> cases kv.subs.get subId <;> simp [Kv.present]

/-- What the retention sweep may do: rows go, and a delivery row goes only with
its message. -/
structure Expired (kv kv' : Kv) : Prop where
  ok : kv'.ok = kv.ok
  idSeq : kv'.idSeq = kv.idSeq
  subs : kv'.subs = kv.subs
  cursors : kv'.cursors = kv.cursors
  idx : kv'.idx = kv.idx
  topicSeq : kv'.topicSeq = kv.topicSeq
  msg : ∀ k, kv'.msg.get k = kv.msg.get k ∨ kv'.msg.get k = none
  dlv : ∀ s q, kv'.dlv.get ⟨s, q⟩ = kv.dlv.get ⟨s, q⟩ ∨
    kv'.dlv.get ⟨s, q⟩ = none ∧ kv'.pending s q = false

variable {kv kv' kv'' : Kv}

theorem Expired.refl : Expired kv kv :=
  ⟨rfl, rfl, rfl, rfl, rfl, rfl, fun _ => Or.inl rfl, fun _ _ => Or.inl rfl⟩

theorem Expired.pending_of (h : Expired kv kv') {s q : Nat} (hp : kv'.pending s q = true) :
    kv.pending s q = true := by
  rw [Kv.pending_iff] at hp ⊢
  obtain ⟨c, r, hc, hr, hd, hm⟩ := hp
  rw [h.cursors] at hc
  rw [h.subs] at hr
  refine ⟨c, r, hc, hr, hd, ?_⟩
  rw [TopicStore.currentTail, h.topicSeq] at hm
  refine hm.imp id fun hm => ?_
  rcases h.msg ⟨r.topicId, q⟩ with he | he
  · rwa [he] at hm
  · rw [he] at hm
    cases hm

theorem Expired.trans (h : Expired kv kv') (h' : Expired kv' kv'') : Expired kv kv'' where
  ok := h'.ok.trans h.ok
  idSeq := h'.idSeq.trans h.idSeq
  subs := h'.subs.trans h.subs
  cursors := h'.cursors.trans h.cursors
  idx := h'.idx.trans h.idx
  topicSeq := h'.topicSeq.trans h.topicSeq
  msg k := by
    rcases h'.msg k with he | he
    · rw [he]
      exact h.msg k
    · exact Or.inr he
  dlv s q := by
    rcases h'.dlv s q with he | he
    · rcases h.dlv s q with he' | ⟨he', hp⟩
      · exact Or.inl (he.trans he')
      · refine Or.inr ⟨he.trans he', ?_⟩
        by_contra hp'
        rw [h'.pending_of (by simpa using hp')] at hp
        cases hp
    · exact Or.inr he

theorem Expired.wellFormed (h : Expired kv kv') (hwf : kv.WellFormed) : kv'.WellFormed where
  record hr := by
    rw [h.subs] at hr
    rw [Kv.counter, h.idSeq]
    exact hwf.record hr
  cursor hc := by
    rw [h.cursors] at hc
    rw [Kv.counter, h.idSeq]
    exact hwf.cursor hc
  index hi := by
    rw [h.idx] at hi
    rw [Kv.counter, h.idSeq, h.subs]
    exact hwf.index hi
  log {topicId seq m} hm := by
    rw [TopicStore.currentTail, h.topicSeq]
    rcases h.msg ⟨topicId, seq⟩ with he | he
    · exact hwf.log (he.symm.trans hm)
    · rw [he] at hm
      cases hm

def Retention (kv kv' : Kv) : Prop := kv.WellFormed → Expired kv kv'

instance : Std.Refl Retention := ⟨fun _ _ => Expired.refl⟩

instance : IsTrans Kv Retention :=
  ⟨fun _ _ _ h h' hwf => (h hwf).trans (h' ((h hwf).wellFormed hwf))⟩

/-- Without its row, a message at or below the tail is not pending for the
subscriptions of its topic. -/
theorem Kv.WellFormed.not_pending (hwf : kv.WellFormed) {topicId seq subId : Nat} {u : Unit}
    (hi : kv.idx.get ⟨topicId, subId⟩ = some u) (htail : seq ≤ TopicStore.currentTail kv topicId)
    (hm : kv.msg.get ⟨topicId, seq⟩ = none) : kv.pending subId seq = false := by
  by_contra hp
  obtain ⟨c, r, _, hr, _, hq⟩ := Kv.pending_iff.mp (by simpa using hp)
  rw [(hwf.index hi).2 r hr] at hq
  rcases hq with hq | hq
  · omega
  · rw [hm] at hq
    cases hq

theorem ensures_dropDeliveryRows {topicId seq : Nat} (subIds : List Nat) (kv : Kv)
    (hwf : kv.WellFormed) (hids : ∀ id ∈ subIds, (kv.idx.get ⟨topicId, id⟩).isSome)
    (htail : seq ≤ TopicStore.currentTail kv topicId)
    (hm : kv.msg.get ⟨topicId, seq⟩ = none) :
    Ensures (dropDeliveryRows seq subIds) kv (fun _ kv' => Expired kv kv')
      (fun _ kv' => Expired kv kv') := by
  induction subIds generalizing kv with
  | nil => exact Expired.refl
  | cons id ids ih =>
    simp only [dropDeliveryRows, ensures_bind, ensures_ignore, deleteDlv, ensures_kvWrite]
    have hrest : ∀ kv', Expired kv kv' → kv'.msg.get ⟨topicId, seq⟩ = none →
        Ensures (dropDeliveryRows seq ids) kv' (fun _ kv'' => Expired kv kv'')
          (fun _ kv'' => Expired kv kv'') := by
      intro kv' he hm'
      refine (ih kv' (he.wellFormed hwf) (fun i hi => ?_) ?_ hm').mono
        (fun _ _ h => he.trans h) (fun _ _ h => he.trans h)
      · rw [he.idx]
        exact hids i (List.mem_cons_of_mem _ hi)
      · rw [TopicStore.currentTail, he.topicSeq]
        exact htail
    refine ⟨fun _ => hrest _ ?_ hm, fun _ => hrest _ ?_ hm⟩
    · refine ⟨rfl, rfl, rfl, rfl, rfl, rfl, fun _ => Or.inl rfl, fun s q => ?_⟩
      simp only [SortedMap.get_erase, RowKey.mk.injEq]
      by_cases hk : s = id ∧ q = seq
      · obtain ⟨u, hu⟩ := Option.isSome_iff_exists.mp (hids id List.mem_cons_self)
        rw [if_pos hk, hk.1, hk.2]
        exact Or.inr ⟨rfl, hwf.not_pending hu htail hm⟩
      · rw [if_neg hk]
        exact Or.inl rfl
    · exact ⟨rfl, rfl, rfl, rfl, rfl, rfl, fun _ => Or.inl rfl, fun _ _ => Or.inl rfl⟩

theorem mem_listByTopicId {topicId subId : Nat}
    (h : subId ∈ SubscriptionStore.listByTopicId kv topicId) :
    (kv.idx.get ⟨topicId, subId⟩).isSome := by
  obtain ⟨⟨id, u⟩, hm, rfl⟩ := List.mem_map.mp h
  rw [mem_scanPrefix.mp hm]
  rfl

theorem ensures_sweepMessages (nowMs : Int) (rows : List (RowKey × MessageRecord)) (kv : Kv)
    (hwf : kv.WellFormed) (hrows : ∀ e ∈ rows, e.1.seq ≤ TopicStore.currentTail kv e.1.id) :
    Ensures (sweepMessages nowMs rows) kv (fun _ kv' => Expired kv kv')
      (fun _ kv' => Expired kv kv') := by
  induction rows generalizing kv with
  | nil => exact Expired.refl
  | cons e rows ih =>
    obtain ⟨⟨topicId, seq⟩, m⟩ := e
    have hrest : ∀ kv', Expired kv kv' → Ensures (sweepMessages nowMs rows) kv'
        (fun _ kv'' => Expired kv kv'') (fun _ kv'' => Expired kv kv'') := by
      intro kv' he
      refine (ih kv' (he.wellFormed hwf) fun e hm => ?_).mono
        (fun _ _ h => he.trans h) (fun _ _ h => he.trans h)
      rw [TopicStore.currentTail, he.topicSeq]
      exact hrows e (List.mem_cons_of_mem _ hm)
    rw [sweepMessages, ensures_ite]
    refine ⟨fun _ => hrest kv Expired.refl, fun _ => ?_⟩
    simp only [ensures_bind, ensures_succeeds, deleteMsg, ensures_kvWrite, ensures_ite, ensures_get,
      ensures_pure, Bool.false_eq_true, not_true_eq_false, false_implies,
      not_false_eq_true, true_implies, and_true, true_and]
    refine ⟨fun _ => ?_, fun _ => hrest _ ?_⟩
    · have he : Expired kv { kv with msg := kv.msg.erase ⟨topicId, seq⟩, writes := kv.writes + 1 } := by
        refine ⟨rfl, rfl, rfl, rfl, rfl, rfl, fun k => ?_, fun _ _ => Or.inl rfl⟩
        simp only [SortedMap.get_erase]
        split_ifs
        · exact Or.inr rfl
        · exact Or.inl rfl
      refine (ensures_dropDeliveryRows _ _ (he.wellFormed hwf) (fun id hid => mem_listByTopicId hid)
        (hrows _ List.mem_cons_self) (SortedMap.get_erase_self ..)).mono
        (fun _ kv' h => hrest kv' (he.trans h)) (fun _ _ h => he.trans h)
    · exact ⟨rfl, rfl, rfl, rfl, rfl, rfl, fun _ => Or.inl rfl, fun _ _ => Or.inl rfl⟩

theorem keeps_sweepExpiredMessages (nowMs : Int) :
    Keeps Retention (sweepExpiredMessages nowMs) := by
  refine Keeps.of_pre fun kv hwf => ?_
  simp only [sweepExpiredMessages, ensures_bind, ensures_get]
  exact ensures_sweepMessages nowMs _ kv hwf fun e he => hwf.log (SortedMap.mem_entries.mp he)


/-- What a creation may do, whichever of its writes take effect: it only touches
ids above the counter. -/
structure Attached (topicId attachSeq : Nat) (kv kv' : Kv) : Prop where
  ok : kv'.ok = kv.ok
  counter : kv.counter ≤ kv'.counter
  dlv : kv'.dlv = kv.dlv
  msg : kv'.msg = kv.msg
  topicSeq : kv'.topicSeq = kv.topicSeq
  old : ∀ id ≤ kv.counter, kv'.subs.get id = kv.subs.get id ∧
    kv'.cursors.get id = kv.cursors.get id ∧
    ∀ t, kv'.idx.get ⟨t, id⟩ = kv.idx.get ⟨t, id⟩
  record : ∀ {id r}, kv.counter < id → kv'.subs.get id = some r →
    r.id = id ∧ id ≤ kv'.counter ∧ r.topicId = topicId
  cursor : ∀ {id c}, kv.counter < id → kv'.cursors.get id = some c →
    c = .fresh attachSeq attachSeq ∧ id ≤ kv'.counter ∧ ∃ r, kv'.subs.get id = some r
  index : ∀ {t id u}, kv.counter < id → kv'.idx.get ⟨t, id⟩ = some u →
    t = topicId ∧ id ≤ kv'.counter

theorem Attached.refl (hwf : kv.WellFormed) (topicId attachSeq : Nat) :
    Attached topicId attachSeq kv kv where
  ok := rfl
  counter := le_rfl
  dlv := rfl
  msg := rfl
  topicSeq := rfl
  old _ _ := ⟨rfl, rfl, fun _ => rfl⟩
  record h hr := absurd (hwf.record hr).2 (not_le.mpr h)
  cursor h hc := absurd (hwf.cursor hc) (not_le.mpr h)
  index h hi := absurd (hwf.index hi).1 (not_le.mpr h)

theorem Attached.wellFormed {topicId attachSeq : Nat} (h : Attached topicId attachSeq kv kv')
    (hwf : kv.WellFormed) : kv'.WellFormed where
  record {id r} hr := by
    rcases Nat.lt_or_ge kv.counter id with hid | hid
    · exact ⟨(h.record hid hr).1, (h.record hid hr).2.1⟩
    · rw [(h.old id hid).1] at hr
      exact ⟨(hwf.record hr).1, hid.trans h.counter⟩
  cursor {id c} hc := by
    rcases Nat.lt_or_ge kv.counter id with hid | hid
    · exact (h.cursor hid hc).2.1
    · exact hid.trans h.counter
  index {t id u} hi := by
    rcases Nat.lt_or_ge kv.counter id with hid | hid
    · obtain ⟨ht, hle⟩ := h.index hid hi
      exact ⟨hle, fun r hr => ht ▸ (h.record hid hr).2.2⟩
    · rw [(h.old id hid).2.2 t] at hi
      refine ⟨hid.trans h.counter, fun r hr => ?_⟩
      rw [(h.old id hid).1] at hr
      exact (hwf.index hi).2 r hr
  log {t q m} hm := by
    rw [h.msg] at hm
    rw [TopicStore.currentTail, h.topicSeq]
    exact hwf.log hm

theorem attached_of_rows (hwf : kv.WellFormed) (kv' : Kv) {topicId : Nat} (attachSeq : Nat)
    {r : SubscriptionRecord} (hr : r.id = kv.counter + 1 ∧ r.topicId = topicId)
    (hok : kv'.ok = kv.ok) (hid : kv'.idSeq = some (kv.counter + 1)) (hdlv : kv'.dlv = kv.dlv)
    (hmsg : kv'.msg = kv.msg) (hseq : kv'.topicSeq = kv.topicSeq)
    (hsubs : kv'.subs = kv.subs ∨ kv'.subs = kv.subs.insert r.id r)
    (hcur : kv'.cursors = kv.cursors ∨ kv'.subs = kv.subs.insert r.id r ∧
      kv'.cursors = kv.cursors.insert r.id (.fresh attachSeq attachSeq))
    (hidx : kv'.idx = kv.idx ∨ kv'.idx = kv.idx.insert ⟨topicId, r.id⟩ ()) :
    Attached topicId attachSeq kv kv' := by
  have hc : kv'.counter = kv.counter + 1 := by rw [Kv.counter, hid]; rfl
  have hne : ∀ {id}, id ≤ kv.counter → id ≠ r.id := fun h he => by omega
  have hS : ∀ id, id ≠ r.id → kv'.subs.get id = kv.subs.get id := by
    intro id hid
    rcases hsubs with h | h
    · rw [h]
    · rw [h, SortedMap.get_insert_ne _ _ hid]
  have hC : ∀ id, id ≠ r.id → kv'.cursors.get id = kv.cursors.get id := by
    intro id hid
    rcases hcur with h | ⟨_, h⟩
    · rw [h]
    · rw [h, SortedMap.get_insert_ne _ _ hid]
  have hI : ∀ t id, id ≠ r.id → kv'.idx.get ⟨t, id⟩ = kv.idx.get ⟨t, id⟩ := by
    intro t id hid
    rcases hidx with h | h
    · rw [h]
    · rw [h, SortedMap.get_insert_ne]
      simp [hid]
  refine ⟨hok, by omega, hdlv, hmsg, hseq,
    fun id hid => ⟨hS id (hne hid), hC id (hne hid), fun t => hI t id (hne hid)⟩, ?_, ?_, ?_⟩
  · intro id r' hid hr'
    by_cases he : id = r.id
    · rcases hsubs with h | h
      · rw [h] at hr'
        exact absurd (hwf.record hr').2 (not_le.mpr hid)
      · rw [h, he, SortedMap.get_insert_self, Option.some.injEq] at hr'
        subst hr'
        exact ⟨he.symm, by omega, hr.2⟩
    · rw [hS id he] at hr'
      exact absurd (hwf.record hr').2 (not_le.mpr hid)
  · intro id c hid hc'
    by_cases he : id = r.id
    · rcases hcur with h | ⟨hs, h⟩
      · rw [h] at hc'
        exact absurd (hwf.cursor hc') (not_le.mpr hid)
      · rw [h, he, SortedMap.get_insert_self, Option.some.injEq] at hc'
        exact ⟨hc'.symm, by omega, r, by rw [hs, he, SortedMap.get_insert_self]⟩
    · rw [hC id he] at hc'
      exact absurd (hwf.cursor hc') (not_le.mpr hid)
  · intro t id u hid hi
    by_cases he : id = r.id
    · rcases hidx with h | h
      · rw [h] at hi
        exact absurd (hwf.index hi).1 (not_le.mpr hid)
      · rw [h, SortedMap.get_insert] at hi
        split_ifs at hi with hk
        · simp only [RowKey.mk.injEq] at hk
          exact ⟨hk.1, by omega⟩
        · exact absurd (hwf.index hi).1 (not_le.mpr hid)
    · rw [hI t id he] at hi
      exact absurd (hwf.index hi).1 (not_le.mpr hid)

theorem ensures_createSubscription (hwf : kv.WellFormed) (fullName topicFullName : String)
    (topicId attachSeq : Nat) (nowMs : Int) (opts : CreateSubscriptionOptions) :
    Ensures (SubscriptionStore.create fullName topicFullName topicId attachSeq nowMs opts) kv
      (fun _ kv' => Attached topicId attachSeq kv kv')
      (fun _ kv' => Attached topicId attachSeq kv kv') := by
  have hrefl := Attached.refl hwf topicId attachSeq
  simp only [SubscriptionStore.create, SubscriptionStore.persist, nextId, putIdSeq, putSub,
    putSubName, putCursor, putIdx, ensures_bind, ensures_liftResult, ensures_estateGet, ensures_get,
    ensures_ite, ensures_throw, ensures_kvWrite, ensures_pure]
  refine ⟨fun n _ => ⟨fun _ => hrefl, fun _ => ?_⟩, fun _ _ => hrefl⟩
  have hrows := fun (kv' : Kv) => attached_of_rows hwf kv' attachSeq
    (r := SubscriptionStore.newRecord fullName topicFullName topicId nowMs opts n (kv.counter + 1))
    ⟨rfl, rfl⟩
  refine ⟨fun _ => ⟨fun _ => ⟨fun _ => ⟨fun _ => ⟨fun _ => ?_, fun _ => ?_⟩, fun _ => ?_⟩, fun _ => ?_⟩,
    fun _ => ?_⟩, fun _ => ?_⟩
  · exact hrows _ rfl rfl rfl rfl rfl (Or.inr rfl) (Or.inr ⟨rfl, rfl⟩) (Or.inr rfl)
  · exact hrows _ rfl rfl rfl rfl rfl (Or.inr rfl) (Or.inr ⟨rfl, rfl⟩) (Or.inl rfl)
  · exact hrows _ rfl rfl rfl rfl rfl (Or.inr rfl) (Or.inl rfl) (Or.inl rfl)
  · exact hrows _ rfl rfl rfl rfl rfl (Or.inr rfl) (Or.inl rfl) (Or.inl rfl)
  · exact hrows _ rfl rfl rfl rfl rfl (Or.inl rfl) (Or.inl rfl) (Or.inl rfl)
  · exact ⟨rfl, le_rfl, rfl, rfl, rfl, hrefl.old, hrefl.record, hrefl.cursor, hrefl.index⟩

def Kv.Healthy (kv : Kv) : Prop := ∀ n, kv.ok n = true

theorem ensures_kvWrite_healthy {f : Kv → Kv} {kv : Kv} (hh : kv.Healthy)
    {Q : Unit → Kv → Prop} {E : Error → Kv → Prop} :
    Ensures (kvWrite f) kv Q E ↔ Q () (f kv.tick) := by
  rw [ensures_kvWrite]
  simp [hh kv.writes, Kv.tick]

/-- What deletions do on a healthy store: a record goes together with its
cursor. -/
structure Pruned (kv kv' : Kv) : Prop where
  ok : kv'.ok = kv.ok
  idSeq : kv'.idSeq = kv.idSeq
  dlv : kv'.dlv = kv.dlv
  msg : kv'.msg = kv.msg
  topicSeq : kv'.topicSeq = kv.topicSeq
  rows : ∀ id, kv'.subs.get id = kv.subs.get id ∧ kv'.cursors.get id = kv.cursors.get id ∨
    kv'.subs.get id = none ∧ kv'.cursors.get id = none
  idx : ∀ k, kv'.idx.get k = kv.idx.get k ∨ kv'.idx.get k = none

theorem Pruned.refl : Pruned kv kv :=
  ⟨rfl, rfl, rfl, rfl, rfl, fun _ => Or.inl ⟨rfl, rfl⟩, fun _ => Or.inl rfl⟩

theorem Pruned.trans (h : Pruned kv kv') (h' : Pruned kv' kv'') : Pruned kv kv'' where
  ok := h'.ok.trans h.ok
  idSeq := h'.idSeq.trans h.idSeq
  dlv := h'.dlv.trans h.dlv
  msg := h'.msg.trans h.msg
  topicSeq := h'.topicSeq.trans h.topicSeq
  rows id := by
    rcases h'.rows id with ⟨hs, hc⟩ | hn
    · rw [hs, hc]
      exact h.rows id
    · exact Or.inr hn
  idx k := by
    rcases h'.idx k with hi | hi
    · rw [hi]
      exact h.idx k
    · exact Or.inr hi

theorem Pruned.subs_of (h : Pruned kv kv') {id : Nat} {r : SubscriptionRecord}
    (hr : kv'.subs.get id = some r) : kv.subs.get id = some r := by
  rcases h.rows id with ⟨hs, _⟩ | ⟨hs, _⟩
  · exact hs.symm.trans hr
  · rw [hs] at hr
    cases hr

theorem Pruned.wellFormed (h : Pruned kv kv') (hwf : kv.WellFormed) : kv'.WellFormed where
  record {id r} hr := by
    rw [Kv.counter, h.idSeq]
    exact hwf.record (h.subs_of hr)
  cursor {id c} hc := by
    rw [Kv.counter, h.idSeq]
    rcases h.rows id with ⟨_, hc'⟩ | ⟨_, hc'⟩
    · exact hwf.cursor (hc'.symm.trans hc)
    · rw [hc'] at hc
      cases hc
  index {t id u} hi := by
    rw [Kv.counter, h.idSeq]
    rcases h.idx ⟨t, id⟩ with hi' | hi'
    · have hw := hwf.index (hi'.symm.trans hi)
      exact ⟨hw.1, fun r hr => hw.2 r (h.subs_of hr)⟩
    · rw [hi'] at hi
      cases hi
  log {t q m} hm := by
    rw [h.msg] at hm
    rw [TopicStore.currentTail, h.topicSeq]
    exact hwf.log hm

def Pruning (kv kv' : Kv) : Prop := kv.Healthy ∧ kv.WellFormed → Pruned kv kv'

instance : Std.Refl Pruning := ⟨fun _ _ => Pruned.refl⟩

instance : IsTrans Kv Pruning :=
  ⟨fun _ _ _ h h' hp => (h hp).trans
    (h' ⟨fun n => by rw [(h hp).ok]; exact hp.1 n, (h hp).wellFormed hp.2⟩)⟩

theorem keeps_deleteSubscription (fullName : String) :
    Keeps Pruning (SubscriptionStore.delete fullName) := by
  refine Keeps.of_pre fun kv ⟨hh, hwf⟩ => ?_
  have hf : ∀ n, kv.ok n ≠ false := fun n => by simp [hh n]
  simp only [SubscriptionStore.delete, ensures_bind, ensures_estateGet, ensures_liftResult,
    deleteSubRow, deleteSubName, deleteCursor, deleteIdx, ensures_kvWrite]
  refine ⟨fun r hr => ⟨fun _ => ⟨fun _ => ⟨fun _ => ⟨fun _ => ?_, fun h => absurd h (hf _)⟩,
    fun h => absurd h (hf _)⟩, fun h => absurd h (hf _)⟩, fun h => absurd h (hf _)⟩,
    fun _ _ => Pruned.refl⟩
  refine ⟨rfl, rfl, rfl, rfl, rfl, fun id => ?_, fun k => ?_⟩
  · simp only [SortedMap.get_erase]
    split_ifs
    · exact Or.inr ⟨rfl, rfl⟩
    · exact Or.inl ⟨rfl, rfl⟩
  · simp only [SortedMap.get_erase]
    split_ifs
    · exact Or.inr rfl
    · exact Or.inl rfl

theorem keeps_sweepSubscriptions (nowMs : Int) : Keeps Pruning (SubscriptionStore.sweepExpired nowMs) := by
  have hloop : ∀ rs, Keeps Pruning (SubscriptionStore.sweepRecords nowMs rs) := by
    intro rs
    induction rs with
    | nil => exact Keeps.pure _
    | cons r rs ih =>
      refine Keeps.ite (fun _ => ?_) fun _ => ih
      exact Keeps.bind (keeps_deleteSubscription r.name) fun _ => Keeps.bind ih fun _ => Keeps.pure _
  exact Keeps.bind Keeps.estateGet fun _ => hloop _

end OpenPubusb
