import OpenPubusb.CatalogOps
import OpenPubusb.RefineOps

/-! What one step does to the logs of the topics: they only grow, the retention
sweep apart, and that one removes nothing but expired messages. -/

namespace OpenPubusb

open Hoare

/-- The logs have grown: nothing was removed, and what was published has its row. -/
structure Grown (kv kv' : Kv) : Prop where
  tail : ∀ topicId, TopicStore.currentTail kv topicId ≤ TopicStore.currentTail kv' topicId
  kept : ∀ {topicId seq m}, kv.msg.get ⟨topicId, seq⟩ = some m →
    kv'.msg.get ⟨topicId, seq⟩ = some m
  present : ∀ {topicId seq}, kv.present topicId seq = true → kv'.present topicId seq = true

variable {kv kv' kv'' : Kv}

theorem grown_of_eq (hmsg : kv'.msg = kv.msg) (hseq : kv'.topicSeq = kv.topicSeq) :
    Grown kv kv' := by
  refine ⟨fun t => ?_, fun {t q m} hm => ?_, fun {t q} hp => ?_⟩
  · rw [TopicStore.currentTail, TopicStore.currentTail, hseq]
  · rw [hmsg]
    exact hm
  · rw [Kv.present, TopicStore.currentTail, hmsg, hseq]
    exact hp

theorem Grown.trans (h : Grown kv kv') (h' : Grown kv' kv'') : Grown kv kv'' :=
  ⟨fun t => (h.tail t).trans (h'.tail t), fun hm => h'.kept (h.kept hm),
    fun hp => h'.present (h.present hp)⟩

theorem Extended.grown (h : Extended kv kv') (hf : Filled kv kv') (hwf : kv.WellFormed) :
    Grown kv kv' := by
  refine ⟨h.tail, fun {t q m} hm => ?_, fun {t q} hp => ?_⟩
  · rw [h.kept t q (hwf.log hm)]
    exact hm
  · rw [h.present_eq hf]
    exact hp

theorem Path.log_eq {op : Op} (h : Path op kv kv') (hop : op.appends = false) :
    kv'.msg = kv.msg ∧ kv'.topicSeq = kv.topicSeq := by
  induction h with
  | refl => exact ⟨rfl, rfl⟩
  | tail _ hch ih =>
    have hstep : ∀ {kv kv' : Kv}, Change op kv kv' → kv'.msg = kv.msg ∧ kv'.topicSeq = kv.topicSeq := by
      intro kv kv' hch
      cases hch with
      | log _ _ _ happ =>
        rw [hop] at happ
        cases happ
      | _ => exact ⟨rfl, rfl⟩
    obtain ⟨hmsg, hseq⟩ := hstep hch
    exact ⟨hmsg.trans ih.1, hseq.trans ih.2⟩

section Step

variable {s : Engine} {i : Input}

theorem ensures_publish_grown (hwf : s.WellFormed) (topic : String)
    (messages : List PublishMessage) (nowMs : Int) :
    Ensures (PubSubService.publish topic messages nowMs) s (fun _ t => Grown s.kv t.kv)
      (fun _ t => Grown s.kv t.kv) := by
  simp only [PubSubService.publish, ensures_bind, ensures_onKv, ensures_pure, ensures_get,
    ensures_liftResult]
  refine ⟨fun r _ => ?_, fun _ _ => grown_of_eq rfl rfl⟩
  refine (ensures_append ..).mono (fun _ kv' h => h.extended.grown h.filled hwf.kv)
    (fun _ kv' h => ?_)
  rcases h.2.2 with ⟨rfl, _⟩ | ⟨n, hn⟩
  · exact grown_of_eq rfl rfl
  · rw [hwf.healthy n] at hn
    cases hn

theorem ensures_leaseNext_grown (hwf : s.WellFormed) {subId topicId : Nat}
    (ht : ∀ r, s.kv.subs.get subId = some r → r.topicId = topicId)
    (maxMessages nowMs ackDeadlineSecs : Int) :
    Ensures (leaseNext subId topicId maxMessages nowMs ackDeadlineSecs) s
      (fun _ t => Grown s.kv t.kv ∧ t.WellFormed) (fun _ t => Grown s.kv t.kv) :=
  (ensures_leaseNext hwf ht maxMessages nowMs ackDeadlineSecs).mono
    (fun _ _ h => ⟨h.extended.grown h.filled hwf.kv, h.wellFormed hwf⟩)
    (fun _ _ h => h.extended.grown h.filled hwf.kv)

theorem ensures_pull_grown (hwf : s.WellFormed) (name : String) (maxMessages nowMs : Int) :
    Ensures (PubSubService.pullDelivered name maxMessages nowMs) s (fun _ t => Grown s.kv t.kv)
      (fun _ t => Grown s.kv t.kv) := by
  have hrefl : Grown s.kv s.kv := grown_of_eq rfl rfl
  simp only [PubSubService.pullDelivered, PubSubService.attached, ensures_bind, ensures_pure,
    ensures_get, ensures_liftResult, ensures_ite, ensures_throw]
  refine ⟨fun _ _ => ⟨fun sub hsub => ⟨fun _ => hrefl, fun _ => ?_⟩, fun _ _ => hrefl⟩,
    fun _ _ => hrefl⟩
  have ht : ∀ r, s.kv.subs.get sub.id = some r → r.topicId = sub.topicId := by
    intro r hr
    rw [hwf.get_ok hsub] at hr
    cases hr
    rfl
  refine (ensures_leaseNext_grown hwf ht ..).mono (fun _ u h => ?_) (fun _ _ h => h)
  simp only [PubSubService.touch, ensures_ignore, ensures_onKv]
  have key : ∀ kv', Admin settings u.kv kv' → Grown s.kv kv' := fun kv' hkv =>
    h.1.trans (grown_of_eq (hkv h.2.kv).msg (hkv h.2.kv).topicSeq)
  exact (keeps_touch sub.id nowMs u.kv).mono (fun _ kv' hkv => key kv' hkv)
    (fun _ kv' hkv => key kv' hkv)

theorem ensures_leaseForStream_grown (hwf : s.WellFormed) (sid : Nat) (nowMs : Int) :
    Ensures (leaseForStream sid nowMs) s (fun _ t => Grown s.kv t.kv)
      (fun _ t => Grown s.kv t.kv) := by
  have hrefl : Grown s.kv s.kv := grown_of_eq rfl rfl
  simp only [leaseForStream, ensures_bind, ensures_get]
  cases hinfo : s.streams.info sid with
  | none => exact hrefl
  | some info =>
    obtain ⟨st, hst, rfl⟩ := Option.map_eq_some_iff.mp hinfo
    simp only [ensures_ite, ensures_pure, ensures_bind, ensures_modify]
    refine ⟨fun _ => hrefl, fun _ => ?_⟩
    exact (ensures_leaseNext_grown hwf (hwf.session hst).2.2 ..).mono (fun _ _ h => h.1)
      (fun _ _ h => h)

theorem step_grown (hwf : s.WellFormed) (hc : Consistent s.kv) (hop : i.op ≠ .sweepRetention) :
    Grown s.kv (step s i).2.kv := by
  by_cases happ : i.op.appends = true
  · refine ensures_step (P := fun t => Grown s.kv t.kv) ?_
    cases hi : i.op with
    | publish topic messages =>
      simp only [perform, ensures_bind, ensures_pure]
      exact ensures_publish_grown hwf topic messages i.nowMs
    | pull name n =>
      simp only [perform, ensures_bind, ensures_pure]
      exact ensures_pull_grown hwf name n i.nowMs
    | leaseForStream sid =>
      simp only [perform, ensures_bind, ensures_pure, ensures_get]
      exact ensures_leaseForStream_grown hwf sid i.nowMs
    | sweepRetention => exact absurd hi hop
    | _ =>
      rw [hi] at happ
      cases happ
  · obtain ⟨hmsg, hseq⟩ := (step_path i hc hwf.healthy).log_eq (by simpa using happ)
    exact grown_of_eq hmsg hseq

end Step

section Sweep

variable {nowMs : Int}

/-- What the message loop of the retention sweep leaves of the log, and of the
rows of the messages it removes. -/
structure Swept (nowMs : Int) (kv kv' : Kv) : Prop where
  idx : kv'.idx = kv.idx
  dlv : ∀ {k r}, kv'.dlv.get k = some r → kv.dlv.get k = some r
  msg : ∀ {k m}, kv.msg.get k = some m →
    kv'.msg.get k = some m ∨ kv'.msg.get k = none ∧ m.expireAtMs ≤ nowMs
  gone : ∀ {k}, kv.msg.get k = none → kv'.msg.get k = none
  rows : ∀ {topicId seq subId}, (kv.msg.get ⟨topicId, seq⟩).isSome →
    kv'.msg.get ⟨topicId, seq⟩ = none → (kv.idx.get ⟨topicId, subId⟩).isSome →
    kv'.dlv.get ⟨subId, seq⟩ = none

theorem Swept.refl : Swept nowMs kv kv := by
  refine ⟨rfl, fun h => h, Or.inl, fun h => h, fun hs hn _ => ?_⟩
  rw [hn] at hs
  cases hs

theorem Swept.trans (h : Swept nowMs kv kv') (h' : Swept nowMs kv' kv'') : Swept nowMs kv kv'' := by
  refine ⟨h'.idx.trans h.idx, fun hr => h.dlv (h'.dlv hr), fun {k m} hm => ?_,
    fun hn => h'.gone (h.gone hn), fun {t q i} hs hn hi => ?_⟩
  · rcases h.msg hm with hm' | ⟨hm', he⟩
    · exact h'.msg hm'
    · exact Or.inr ⟨h'.gone hm', he⟩
  · cases hq : kv'.msg.get ⟨t, q⟩ with
    | some m =>
      refine h'.rows (by rw [hq]; rfl) hn ?_
      rw [h.idx]
      exact hi
    | none =>
      have hrow := h.rows hs hq hi
      cases hd : kv''.dlv.get ⟨i, q⟩ with
      | none => rfl
      | some r =>
        rw [h'.dlv hd] at hrow
        cases hrow

theorem ensures_dropRows (seq : Nat) (ids : List Nat) (hh : kv.Healthy) (E : Error → Kv → Prop) :
    Ensures (dropDeliveryRows seq ids) kv
      (fun _ kv' => (∃ dlv w, kv' = { kv with dlv := dlv, writes := w }) ∧
        ∀ i q, kv'.dlv.get ⟨i, q⟩ =
          if q = seq ∧ i ∈ ids then none else kv.dlv.get ⟨i, q⟩) E := by
  induction ids generalizing kv with
  | nil => exact ⟨⟨kv.dlv, kv.writes, rfl⟩, fun i q => by simp⟩
  | cons id ids ih =>
    simp only [dropDeliveryRows, ensures_bind, ensures_ignore, deleteDlv,
      ensures_kvWrite_healthy hh]
    refine (@ih { kv.tick with dlv := kv.dlv.erase ⟨id, seq⟩ } fun n => hh n).mono
      (fun _ kv' h => ⟨h.1, fun i q => ?_⟩) (fun _ _ h => h)
    rw [h.2]
    simp only [SortedMap.get_erase, RowKey.mk.injEq, List.mem_cons]
    by_cases hq : q = seq
    · by_cases hi : i ∈ ids
      · simp [hq, hi]
      · simp [hq, hi]
    · simp [hq]

theorem isSome_mem_listByTopicId {topicId subId : Nat}
    (h : (kv.idx.get ⟨topicId, subId⟩).isSome) :
    subId ∈ SubscriptionStore.listByTopicId kv topicId := by
  obtain ⟨u, hu⟩ := Option.isSome_iff_exists.mp h
  exact List.mem_map.mpr ⟨(subId, u), mem_scanPrefix.mpr hu, rfl⟩

theorem swept_one {topicId seq : Nat} {m : MessageRecord} {w : Nat}
    {dlv : SortedMap RowKey DeliveryRecord}
    (hm : ∀ m', kv.msg.get ⟨topicId, seq⟩ = some m' → m' = m) (he : m.expireAtMs ≤ nowMs)
    (hdlv : ∀ i q, dlv.get ⟨i, q⟩ =
      if q = seq ∧ i ∈ SubscriptionStore.listByTopicId kv topicId then none
      else kv.dlv.get ⟨i, q⟩) :
    Swept nowMs kv { kv with msg := kv.msg.erase ⟨topicId, seq⟩, dlv := dlv, writes := w } := by
  refine ⟨rfl, fun {k r} hr => ?_, fun {k m'} hm' => ?_, fun {k} hn => ?_,
    fun {t q i} hs hn hi => ?_⟩
  · obtain ⟨i, q⟩ := k
    change dlv.get ⟨i, q⟩ = some r at hr
    rw [hdlv] at hr
    split_ifs at hr
    exact hr
  · simp only [SortedMap.get_erase]
    split_ifs with hk
    · rw [hk] at hm'
      rw [hm m' hm']
      exact Or.inr ⟨rfl, he⟩
    · exact Or.inl hm'
  · simp only [SortedMap.get_erase, hn, ite_self]
  · simp only [SortedMap.get_erase] at hn
    split_ifs at hn with hk
    · simp only [RowKey.mk.injEq] at hk
      change dlv.get ⟨i, q⟩ = none
      rw [hdlv, if_pos ⟨hk.2, isSome_mem_listByTopicId (hk.1 ▸ hi)⟩]
    · rw [hn] at hs
      cases hs

theorem ensures_sweepMessages_swept (rows : List (RowKey × MessageRecord)) (hh : kv.Healthy)
    (hrows : ∀ e ∈ rows, ∀ m, kv.msg.get e.1 = some m → m = e.2) (E : Error → Kv → Prop) :
    Ensures (sweepMessages nowMs rows) kv
      (fun _ kv' => Swept nowMs kv kv' ∧ ∀ e ∈ rows, e.2.expireAtMs ≤ nowMs → kv'.msg.get e.1 = none)
      E := by
  induction rows generalizing kv with
  | nil => exact ⟨Swept.refl, fun _ h => by cases h⟩
  | cons e rows ih =>
    obtain ⟨⟨topicId, seq⟩, m⟩ := e
    rw [sweepMessages, ensures_ite]
    refine ⟨fun hlive => ?_, fun hexp => ?_⟩
    · refine (ih hh fun e he => hrows e (List.mem_cons_of_mem _ he)).mono
        (fun _ kv' h => ⟨h.1, fun e he hexp => ?_⟩) (fun _ _ h => h)
      rcases List.mem_cons.mp he with rfl | he
      · exact absurd hexp (not_le.mpr hlive)
      · exact h.2 e he hexp
    simp only [ensures_bind, ensures_succeeds, deleteMsg, ensures_kvWrite_healthy hh, ensures_ite,
      ensures_get, ensures_pure, not_true_eq_false, false_implies, true_implies, and_true]
    have hh₀ : Kv.Healthy { kv.tick with msg := kv.msg.erase ⟨topicId, seq⟩ } := fun n => hh n
    refine (ensures_dropRows seq _ hh₀ _).mono (fun _ kv₁ h => ?_) (fun _ _ h => h)
    obtain ⟨⟨dlv, w, hkv⟩, hdlv⟩ := h
    have hone : Swept nowMs kv kv₁ := by
      rw [hkv] at hdlv ⊢
      exact swept_one (fun m' hm' => hrows _ List.mem_cons_self m' hm') (not_lt.mp hexp) hdlv
    refine (ih ?_ fun e he m' hm' => ?_).mono (fun _ kv' h => ⟨hone.trans h.1, fun e he hexp => ?_⟩)
      (fun _ _ h => h)
    rotate_right
    · rcases List.mem_cons.mp he with rfl | he
      · refine h.1.gone ?_
        rw [hkv]
        exact SortedMap.get_erase_self ..
      · exact h.2 e he hexp
    · rw [hkv]
      exact fun n => hh n
    · refine hrows e (List.mem_cons_of_mem _ he) m' ?_
      cases hk : kv.msg.get e.1 with
      | none =>
        rw [hone.gone hk] at hm'
        cases hm'
      | some x =>
        rcases hone.msg hk with hx | ⟨hx, _⟩
        · exact hx.symm.trans hm'
        · rw [hx] at hm'
          cases hm'

/-- What the message loop leaves when it has seen every message. -/
structure Cleared (nowMs : Int) (kv kv' : Kv) : Prop extends Swept nowMs kv kv' where
  expired : ∀ {k m}, kv.msg.get k = some m → m.expireAtMs ≤ nowMs → kv'.msg.get k = none

/-- A subscription that has not expired is still there. -/
def Unexpired (nowMs : Int) (kv kv' : Kv) : Prop :=
  ∀ id r, kv.subs.get id = some r → SubscriptionStore.isExpired r nowMs = false →
    kv'.subs.get id = some r

theorem ensures_sweepRecords (rs : List SubscriptionRecord) (hc : Consistent kv)
    (hh : kv.Healthy) (hrs : ∀ r ∈ rs, ∀ id x, kv.subs.get id = some x → x.name = r.name → x = r) :
    Ensures (SubscriptionStore.sweepRecords nowMs rs) kv (fun _ kv' => Unexpired nowMs kv kv')
      (fun _ kv' => Unexpired nowMs kv kv') := by
  induction rs generalizing kv with
  | nil => exact fun _ _ h _ => h
  | cons r rs ih =>
    rw [SubscriptionStore.sweepRecords, ensures_ite]
    refine ⟨fun hexp => ?_, fun _ => ih hc hh fun x hx => hrs x (List.mem_cons_of_mem _ hx)⟩
    have hdelete : Ensures (SubscriptionStore.delete r.name) kv
        (fun _ kv' => (Consistent kv' ∧ kv'.Healthy) ∧ Unexpired nowMs kv kv' ∧
          ∀ id x, kv'.subs.get id = some x → kv.subs.get id = some x)
        (fun _ kv' => Unexpired nowMs kv kv') := by
      simp only [SubscriptionStore.delete, ensures_bind, ensures_estateGet, ensures_liftResult,
        deleteSubRow, deleteSubName, deleteCursor, deleteIdx]
      refine ⟨fun x hx => ?_, fun _ _ _ _ h _ => h⟩
      obtain ⟨id, hn, hs⟩ := get_eq_ok hx
      have hxr : x = r := hrs r List.mem_cons_self id x hs (hc.subs.name_eq hn hs)
      refine (ensures_kvWrite_healthy hh).mpr ((ensures_kvWrite_healthy ?_).mpr
        ((ensures_kvWrite_healthy ?_).mpr ((ensures_kvWrite_healthy ?_).mpr ?_)))
      · exact fun n => hh n
      · exact fun n => hh n
      · exact fun n => hh n
      · have hev := evolves_deleteSubscription hc hs (kv.writes + 4)
        refine ⟨⟨hev.consistent, hev.healthy hh⟩, fun j y hy hlive => ?_, fun j y hy => ?_⟩
        · refine (SortedMap.get_erase_ne _ fun hj => ?_).trans hy
          rw [hj, (hc.subs.record hs).2, hs, Option.some.injEq] at hy
          rw [← hy, hxr, hexp] at hlive
          cases hlive
        · change (kv.subs.erase x.id).get j = some y at hy
          rw [SortedMap.get_erase] at hy
          split_ifs at hy
          exact hy
    simp only [ensures_bind, ensures_pure]
    refine hdelete.mono (fun _ kv₁ h => ?_) (fun _ _ h => h)
    obtain ⟨⟨hc₁, hh₁⟩, hun, hsub⟩ := h
    have htrans : ∀ kv₂, Unexpired nowMs kv₁ kv₂ → Unexpired nowMs kv kv₂ :=
      fun kv₂ h₂ j y hy hlive => h₂ j y (hun j y hy hlive) hlive
    refine (ih hc₁ hh₁ fun x hx j y hy => ?_).mono (fun _ kv₂ h => htrans kv₂ h)
      (fun _ kv₂ h => htrans kv₂ h)
    exact hrs x (List.mem_cons_of_mem _ hx) j y (hsub j y hy)

theorem step_swept {s : Engine} {i : Input} (hwf : s.WellFormed) (hc : Consistent s.kv)
    (hop : i.op = .sweepRetention) :
    ∃ kv₁, Expired s.kv kv₁ ∧ Cleared i.nowMs s.kv kv₁ ∧ Pruned kv₁ (step s i).2.kv ∧
      Unexpired i.nowMs kv₁ (step s i).2.kv ∧ (step s i).2.leases = s.leases := by
  refine ensures_step (P := fun t => ∃ kv₁, Expired s.kv kv₁ ∧ Cleared i.nowMs s.kv kv₁ ∧
    Pruned kv₁ t.kv ∧ Unexpired i.nowMs kv₁ t.kv ∧ t.leases = s.leases) ?_
  rw [hop]
  simp only [perform, PubSubService.sweepRetention, ensures_bind, ensures_onKv, ensures_pure,
    ensures_ignore]
  have hmsgs : Ensures (sweepExpiredMessages i.nowMs) s.kv
      (fun _ kv₁ => Expired s.kv kv₁ ∧ Cleared i.nowMs s.kv kv₁ ∧ Consistent kv₁)
      (fun _ _ => False) := by
    have hswept : Ensures (sweepExpiredMessages i.nowMs) s.kv
        (fun _ kv₁ => Cleared i.nowMs s.kv kv₁) (fun _ _ => False) := by
      simp only [sweepExpiredMessages, ensures_bind, ensures_get]
      refine (ensures_sweepMessages_swept _ hwf.healthy (fun e he m hm => ?_) _).mono
        (fun _ _ h => ⟨h.1, fun hm => h.2 _ (SortedMap.mem_entries.mpr hm)⟩) (fun _ _ h => h)
      rw [SortedMap.mem_entries.mp he] at hm
      cases hm
      rfl
    have hcons : Keeps (Moves .sweepRetention) (sweepExpiredMessages i.nowMs) := by
      have : LogFrame (Moves .sweepRetention) := logFrame_moves rfl
      exact Keeps.bind Keeps.get fun _ => keeps_sweepMessages i.nowMs _
    refine (((keeps_sweepExpiredMessages i.nowMs s.kv).and (hcons s.kv)).and hswept).mono
      (fun _ kv₁ h => ⟨h.1.1 hwf.kv, h.2, ?_⟩) (fun _ _ h => h.2)
    exact (Path.evolves (h.1.2 ⟨hc, hwf.healthy⟩) hc).consistent
  refine hmsgs.mono (fun _ kv₁ h => ?_) (fun _ _ h => h.elim)
  obtain ⟨hexp, hswept, hc₁⟩ := h
  have hh₁ : kv₁.Healthy := fun n => by
    rw [hexp.ok]
    exact hwf.healthy n
  have hwf₁ := hexp.wellFormed hwf.kv
  have hsubs : Ensures (SubscriptionStore.sweepExpired i.nowMs) kv₁
      (fun _ kv₂ => Unexpired i.nowMs kv₁ kv₂) (fun _ kv₂ => Unexpired i.nowMs kv₁ kv₂) := by
    simp only [SubscriptionStore.sweepExpired, ensures_bind, ensures_estateGet]
    refine ensures_sweepRecords _ hc₁ hh₁ fun r hr id x hx hname => ?_
    obtain ⟨⟨id', _⟩, he, rfl⟩ := List.mem_map.mp hr
    have hr' := SortedMap.mem_entries.mp he
    have hid := (hc₁.subs.record hx).1
    rw [hname, (hc₁.subs.record hr').1, Option.some.injEq] at hid
    rw [hid, hx, Option.some.injEq] at hr'
    exact hr'
  exact ((keeps_sweepSubscriptions i.nowMs kv₁).and hsubs).mono
    (fun _ _ h => ⟨kv₁, hexp, hswept, h.1 ⟨hh₁, hwf₁⟩, h.2, trivial⟩)
    (fun _ _ h => ⟨kv₁, hexp, hswept, h.1 ⟨hh₁, hwf₁⟩, h.2, trivial⟩)

end Sweep

end OpenPubusb
