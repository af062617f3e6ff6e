import OpenPubusb.Refine

/-! The delivery calls refine the effects of the abstract machine. -/

namespace OpenPubusb

open Hoare

variable {s t : Engine} {i : Input}

theorem CallFrame.record_of {subId : Nat} (h : CallFrame subId s t) {id : Nat}
    {r' : SubscriptionRecord} (hr : t.kv.subs.get id = some r') :
    ∃ r, s.kv.subs.get id = some r ∧ identity r' = identity r ∧
      ((∀ name patch, i.op ≠ .updateSubscription name patch) → settings r' = settings r) := by
  rw [h.extended.subs] at hr
  exact ⟨r', hr, rfl, fun _ => rfl⟩

theorem CallFrame.counter_le {subId : Nat} (h : CallFrame subId s t) :
    s.kv.counter ≤ t.kv.counter := by
  rw [Kv.counter, Kv.counter, h.extended.idSeq]

theorem logOf_append_of_ne {l added : List DeadLettered} {j subId q : Nat}
    (h : ∀ en ∈ added, en.subId = j) (hj : subId ≠ j) :
    logOf (l ++ added) subId q = logOf l subId q := by
  have hnil : logOf added subId q = [] := by
    refine List.filter_eq_nil_iff.mpr fun en hen => ?_
    simp [h en hen, Ne.symm hj]
  rw [logOf, List.filter_append, ← logOf, ← logOf, hnil, List.append_nil]

section LeaseCall

variable {a : LeaseArgs}

theorem row_of_scan (ht : ∀ r, s.kv.subs.get a.subId = some r → r.topicId = a.topicId)
    {q : Nat} {m : MessageRecord} (hp : (s.slot a.subId q).pending = true)
    (hm : (q, m) ∈ scanPrefix s.kv.msg a.topicId) :
    ∃ r, s.kv.subs.get a.subId = some r ∧ s.kv.msg.get ⟨r.topicId, q⟩ = some m := by
  obtain ⟨_, r, _, hr, _⟩ := Kv.pending_iff.mp hp
  exact ⟨r, hr, by rw [ht r hr]; exact mem_scanPrefix.mp hm⟩

theorem Copied.cause (ht : ∀ r, s.kv.subs.get a.subId = some r → r.topicId = a.topicId)
    {q : Nat} {m : MessageRecord} {en : DeadLettered} {reply : Reply} {saved : Bool} {secs : Int}
    (hcall : leaseCall s i.op = some (a.subId, secs))
    (hsaved : saved = false → (∃ e, reply = .failed e) ∧ Refused s i a.subId)
    (hp : (s.slot a.subId q).pending = true) (hm : (q, m) ∈ scanPrefix s.kv.msg a.topicId)
    (hlog : logOf t.deadLettered a.subId q = logOf s.deadLettered a.subId q ++ [en])
    (hext : Extended s.kv t.kv) (h : Copied (reclaimPolicy s.kv a.subId) t.kv m en) :
    Cause s i reply t a.subId q (.forwarded saved) := by
  obtain ⟨r, hr, hrow⟩ := row_of_scan ht hp hm
  obtain ⟨⟨name, dlq, hn, hg, hid⟩, ⟨copy, hc, hpay, hkey⟩, _⟩ := h
  exact ⟨⟨secs, hcall⟩, hsaved, r, m, en, name, dlq, copy, hr, hrow, hn,
    (hext.topicGet name).symm.trans hg, hid, hlog, hc, hpay, hkey⟩

theorem LeaseFrame.slotStep_ne {reply : Reply} (h : LeaseFrame a.subId s t)
    (hreply : ∀ j ds, reply = .delivered j ds → j = a.subId)
    (hmod : modifyCall s.kv i.op = none) (hack : ackCall s.kv i.op = none) {subId : Nat}
    (hne : subId ≠ a.subId) (q : Nat) : SlotStep s i reply t subId q .idle where
  enabled := trivial
  slot := h.slot_ne hne q
  cause := trivial
  delivered hr := absurd (hreply _ _ hr) hne
  granted hg := by cases hg
  modified hm := by
    rw [hmod] at hm
    cases hm
  acked ha := by
    rw [hack] at ha
    cases ha
  log _ := by
    obtain ⟨added, hl, hm⟩ := h.log
    rw [hl, logOf_append_of_ne hm hne]

theorem LeaseDone.refines {out : List Delivered} (h : LeaseDone a s t out) (hwf : s.WellFormed)
    (ht : ∀ r, s.kv.subs.get a.subId = some r → r.topicId = a.topicId)
    (hcall : leaseCall s i.op = some (a.subId, a.ackDeadlineSecs)) (hnow : a.nowMs = i.nowMs)
    (hmod : modifyCall s.kv i.op = none) (hack : ackCall s.kv i.op = none) :
    Refines s i (.delivered a.subId out) t where
  wf := h.wellFormed hwf
  counter := h.counter_le
  record _ hr := h.record_of hr
  slots subId q := by
    by_cases hs : subId = a.subId
    · subst hs
      obtain ⟨e, hen, hsl, ho⟩ := h.slots q
      rw [hnow] at hen
      have hdel : ∀ {ds d}, Reply.delivered a.subId out = .delivered a.subId ds → d ∈ ds →
          d.seq = q → d ∈ deliveriesOf out q := by
        intro ds d hr hd hq
        cases hr
        exact List.mem_filter.mpr ⟨hd, by simpa using hq⟩
      refine ⟨e, hen, hsl, ?_, fun {ds d} hr hd hq => ?_, fun {r} hg => ?_, fun hm => ?_,
        fun ha => ?_, fun hf => ?_⟩
      · cases e with
        | granted r =>
          obtain ⟨hd, _, hall, m, hm, _⟩ := ho
          obtain ⟨x, hx, hrow⟩ := row_of_scan ht hen.1 hm
          refine ⟨a.ackDeadlineSecs, hcall, ?_, hall, x, m, hx, hrow⟩
          rw [hd, LeaseArgs.deadlineMs, hnow]
        | forwarded saved =>
          obtain ⟨hsv, _, m, en, hm, hlog, hcopy⟩ := ho
          exact hcopy.cause ht hcall (fun hf => by rw [hsv] at hf; cases hf) hen.1 hm hlog h.extended
        | idle => trivial
        | retired dropped => trivial
        | _ => exact ho.elim
      · have hmem := hdel hr hd hq
        cases hr
        cases e with
        | granted r =>
          obtain ⟨_, _, _, m, _, _, hds⟩ := ho
          have hds' : deliveriesOf out q = [deliver a q m r.attempts] := hds
          rw [hds', List.mem_singleton] at hmem
          exact ⟨r, rfl, by rw [hds', hmem], by rw [hmem]; rfl, by rw [hmem]; rfl⟩
        | forwarded saved =>
          rw [ho.2.1] at hmem
          cases hmem
        | idle =>
          rw [ho.1] at hmem
          cases hmem
        | retired dropped =>
          rw [ho.2.2.1] at hmem
          cases hmem
        | _ => exact ho.elim
      · subst hg
        obtain ⟨_, _, _, m, _, _, hds⟩ := ho
        have hmem : deliver a q m r.attempts ∈ deliveriesOf out q := by
          rw [hds]
          exact List.mem_append_right _ List.mem_cons_self
        exact Or.inl ⟨out, _, rfl, (List.mem_filter.mp hmem).1, rfl⟩
      · rw [hmod] at hm
        cases hm
      · rw [hack] at ha
        cases ha
      · cases e with
        | granted r => exact ho.2.1
        | forwarded saved => exact absurd rfl (hf saved)
        | idle => exact ho.2
        | retired dropped => exact ho.2.2.2
        | _ => exact ho.elim
    · refine ⟨.idle, h.slotStep_ne (fun j ds hr => ?_) hmod hack hs q⟩
      cases hr
      rfl

theorem LeaseFailed.refines {err : Error} (h : LeaseFailed a s t) (hwf : s.WellFormed)
    (ht : ∀ r, s.kv.subs.get a.subId = some r → r.topicId = a.topicId)
    (hcall : leaseCall s i.op = some (a.subId, a.ackDeadlineSecs)) (hnow : a.nowMs = i.nowMs)
    (hmod : modifyCall s.kv i.op = none) (hack : ackCall s.kv i.op = none)
    (hargs : scanArgs s i = some a)
    (hrefused : ∀ c, s.kv.cursors.get a.subId = some c → ¬ NoneUndeliverable a s c) :
    Refines s i (.failed err) t where
  wf := h.wellFormed hwf
  counter := h.counter_le
  record _ hr := h.record_of hr
  slots subId q := by
    by_cases hs : subId = a.subId
    · subst hs
      obtain ⟨e, hen, hsl, ho⟩ := h.slots q
      rw [hnow] at hen
      have href : (s.slot a.subId q).pending = true → Refused s i a.subId := fun hp => by
        obtain ⟨c, _, hc, _⟩ := Kv.pending_iff.mp hp
        exact ⟨a, c, hargs, rfl, hc, hrefused c hc⟩
      refine ⟨e, hen, hsl, ?_, fun hr => (by cases hr), fun {r} hg => Or.inr ⟨⟨err, rfl⟩, ?_⟩,
        fun hm => ?_, fun ha => ?_, fun hf => ?_⟩
      · cases e with
        | granted r =>
          obtain ⟨hd, hall, _, m, hm⟩ := ho
          obtain ⟨x, hx, hrow⟩ := row_of_scan ht hen.1 hm
          refine ⟨a.ackDeadlineSecs, hcall, ?_, hall, x, m, hx, hrow⟩
          rw [hd, LeaseArgs.deadlineMs, hnow]
        | forwarded saved =>
          obtain ⟨_, m, en, hm, hlog, hcopy⟩ := ho
          exact hcopy.cause ht hcall (fun _ => ⟨⟨err, rfl⟩, href hen.1⟩) hen.1 hm hlog h.extended
        | idle => trivial
        | _ => exact ho.elim
      · rw [hg] at hen
        exact href hen.1
      · rw [hmod] at hm
        cases hm
      · rw [hack] at ha
        cases ha
      · cases e with
        | granted r => exact ho.2.2.1
        | forwarded saved => exact absurd rfl (hf saved)
        | idle => exact ho
        | _ => exact ho.elim
    · refine ⟨.idle, h.slotStep_ne (fun j ds hr => ?_) hmod hack hs q⟩
      cases hr

end LeaseCall

theorem Acknowledged.refines {subId : Nat} {ackIds : List String}
    (h : Acknowledged subId ackIds s t) (hwf : s.WellFormed)
    (hcall : ackCall s.kv i.op = some (subId, ackIds)) (hmod : modifyCall s.kv i.op = none) :
    Refines s i .done t where
  wf := h.wellFormed hwf
  counter := h.counter_le
  record _ hr := h.record_of hr
  slots j q := by
    have hself : ∀ {ids}, ackCall s.kv i.op = some (j, ids) → j = subId ∧ ids = ackIds := by
      intro ids hc
      rw [hcall] at hc
      cases hc
      exact ⟨rfl, rfl⟩
    have hstep : ∀ {e : Effect}, e.Enabled (reclaimPolicy s.kv j) i.nowMs (s.slot j q) →
        t.slot j q = e.apply (s.slot j q) → Cause s i .done t j q e → (∀ r, e ≠ .granted r) →
        (j = subId → Hit s.leases ackIds subId q → e = .acked) → SlotStep s i .done t j q e := by
      intro e hen hsl hc hg hak
      refine ⟨hen, hsl, hc, fun hr => (by cases hr), fun h => absurd h (hg _), fun hm => ?_,
        fun ha hhit _ => ?_, fun _ => by rw [h.log]⟩
      · rw [hmod] at hm
        cases hm
      · obtain ⟨rfl, rfl⟩ := hself ha
        exact hak rfl hhit
    by_cases hj : j = subId
    · subst hj
      by_cases hany : ∃ k, Hit s.leases ackIds k q
      · have hne : ackIds ≠ [] := by
          rintro rfl
          obtain ⟨_, hk⟩ := hany
          exact hit_nil hk
        obtain ⟨c, hc⟩ := h.loaded hne
        obtain ⟨c', hc', hd, _⟩ := h.done hc
        have hpend : t.kv.pending j q = false := by
          unfold Kv.pending
          rw [hc']
          cases t.kv.subs.get j <;> simp [(hd q).mpr (Or.inr hany)]
        by_cases hown : Hit s.leases ackIds j q
        · refine ⟨.acked, hstep ?_ ?_ ⟨ackIds, hcall, hown⟩ (fun _ h => by cases h) fun _ _ => rfl⟩
          · obtain ⟨x, _, l, hl, _⟩ := hown
            simp [Effect.Enabled, Engine.slot, hl]
          · simp [Engine.slot, Effect.apply, hpend, (h.leases j q).1 hown, (h.row q).1 hany]
        · obtain ⟨k, hk⟩ := hany
          have hkj : k ≠ j := fun he => hown (he ▸ hk)
          refine ⟨.marked, hstep trivial ?_ ⟨ackIds, k, hcall, hkj, hk⟩ (fun _ h => by cases h)
            fun _ hh => absurd hh hown⟩
          simp [Engine.slot, Effect.apply, hpend, (h.leases j q).2 hown, (h.row q).1 ⟨k, hk⟩]
      · refine ⟨.idle, hstep trivial ?_ trivial (fun _ h => by cases h)
          fun _ hh => absurd ⟨j, hh⟩ hany⟩
        have hpend : t.kv.pending j q = s.kv.pending j q := by
          unfold Kv.pending
          cases hc : s.kv.cursors.get j with
          | none =>
            have hn := h.cursor
            rw [hc] at hn
            rw [Option.isSome_eq_false_iff.mp hn |> Option.isNone_iff_eq_none.mp]
          | some c =>
            obtain ⟨c', hc', hd, _⟩ := h.done hc
            have hdone : c'.isDone q = c.isDone q := by
              rw [Bool.eq_iff_iff, hd q]
              exact or_iff_left hany
            simp only [hc', h.extended.subs, h.extended.present_eq h.filled]
            cases s.kv.subs.get j <;> simp [hdone]
        simp only [Engine.slot, hpend, (h.leases j q).2 fun hh => hany ⟨j, hh⟩, (h.row q).2 hany,
          Effect.apply]
    · by_cases hhit : Hit s.leases ackIds j q
      · refine ⟨.stolen, hstep trivial ?_ ⟨subId, ackIds, hcall, Ne.symm hj, hhit⟩
          (fun _ h => by cases h) fun he => absurd he hj⟩
        simp [Engine.slot, Effect.apply, (h.leases j q).1 hhit, h.dlv j q hj, h.pending_ne hj q]
      · refine ⟨.idle, hstep trivial ?_ trivial (fun _ h => by cases h) fun he => absurd he hj⟩
        simp only [Engine.slot, (h.leases j q).2 hhit, h.dlv j q hj, h.pending_ne hj q, Effect.apply]

theorem pending_of_rest {kv kv' : Kv} (h : ∃ dlv w, kv' = { kv with dlv := dlv, writes := w })
    (j q : Nat) : kv'.pending j q = kv.pending j q := by
  obtain ⟨dlv, w, rfl⟩ := h
  rfl

theorem Engine.WellFormed.of_rest (hwf : s.WellFormed)
    (h : ∃ dlv w, t.kv = { s.kv with dlv := dlv, writes := w }) (hc : t.leases.Coherent)
    (hst : t.streams = s.streams) : t.WellFormed := by
  obtain ⟨dlv, w, h⟩ := h
  refine ⟨?_, ?_, ?_, hc, ?_⟩
  · rw [h]
    exact ⟨hwf.kv.record, hwf.kv.cursor, hwf.kv.index, hwf.kv.log⟩
  · rw [h]
    exact hwf.healthy
  · rw [h]
    exact hwf.anchored
  · rw [h, hst]
    exact hwf.session

theorem Rescheduled.refines {subId : Nat} {ackIds : List String} {seconds : Int}
    (h : Rescheduled subId ackIds (LeaseTable.extendedDeadline i.nowMs seconds) s t)
    (hwf : s.WellFormed) (hcall : modifyCall s.kv i.op = some (subId, ackIds, seconds))
    (hack : ackCall s.kv i.op = none) : Refines s i .done t where
  wf := hwf.of_rest h.rest h.coherent h.streams
  counter := by
    obtain ⟨dlv, w, hkv⟩ := h.rest
    rw [hkv]
    exact le_rfl
  record _ hr := by
    obtain ⟨dlv, w, hkv⟩ := h.rest
    rw [hkv] at hr
    exact ⟨_, hr, rfl, fun _ => rfl⟩
  slots j q := by
    have hpend := pending_of_rest h.rest j q
    have hstep : ∀ {e : Effect}, e.Enabled (reclaimPolicy s.kv j) i.nowMs (s.slot j q) →
        t.slot j q = e.apply (s.slot j q) → Cause s i .done t j q e → (∀ r, e ≠ .granted r) →
        (j = subId → Hit s.leases ackIds subId q →
          e = .modified (LeaseTable.extendedDeadline i.nowMs seconds)) →
        SlotStep s i .done t j q e := by
      intro e hen hsl hc hg hmod
      refine ⟨hen, hsl, hc, fun hr => (by cases hr), fun h => absurd h (hg _), fun hm hhit => ?_,
        fun ha => ?_, fun _ => by rw [h.log]⟩
      · rw [hcall] at hm
        cases hm
        exact hmod rfl hhit
      · rw [hack] at ha
        cases ha
    by_cases hhit : j = subId ∧ Hit s.leases ackIds subId q
    · obtain ⟨rfl, hh⟩ := hhit
      refine ⟨.modified (LeaseTable.extendedDeadline i.nowMs seconds),
        hstep ?_ ?_ ⟨ackIds, seconds, hcall, hh, rfl⟩ (fun _ h => by cases h) fun _ _ => rfl⟩
      · obtain ⟨x, _, l, hl, _⟩ := hh
        simp [Effect.Enabled, Engine.slot, hl]
      · simp only [Engine.slot, Effect.apply, hpend, (h.leases j q).1 ⟨rfl, hh⟩,
          (h.dlv j q).1 ⟨rfl, hh⟩]
        cases s.leases.get j q <;> rfl
    · refine ⟨.idle, hstep trivial ?_ trivial (fun _ h => by cases h)
        fun hj hh => absurd ⟨hj, hh⟩ hhit⟩
      simp only [Engine.slot, Effect.apply, hpend, (h.leases j q).2 hhit, (h.dlv j q).2 hhit]

end OpenPubusb
