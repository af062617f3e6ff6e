import OpenPubusb.LeaseCalls

/-! One step of the service acts on every slot by one effect of the abstract
machine, and the reply says what was granted. -/

namespace OpenPubusb

open Hoare

def Cause (s : Engine) (i : Input) (reply : Reply) (t : Engine) (subId seq : Nat) :
    Effect → Prop
  | .granted r => ∃ secs, leaseCall s i.op = some (subId, secs) ∧
      r.deadlineMs = satAddI64 i.nowMs (max secs 0 * 1000) ∧
      (reclaimPolicy s.kv subId).Allows s.kv r.attempts ∧
      ∃ x m, s.kv.subs.get subId = some x ∧ s.kv.msg.get ⟨x.topicId, seq⟩ = some m
  | .forwarded saved => (∃ secs, leaseCall s i.op = some (subId, secs)) ∧
      (saved = false → (∃ e, reply = .failed e) ∧ Refused s i subId) ∧
      ∃ r m en name dlq copy, s.kv.subs.get subId = some r ∧
        s.kv.msg.get ⟨r.topicId, seq⟩ = some m ∧
        (reclaimPolicy s.kv subId).deadLetter.topic = some name ∧
        TopicStore.get s.kv name = .ok dlq ∧ en.topicId = dlq.id ∧
        logOf t.deadLettered subId seq = logOf s.deadLettered subId seq ++ [en] ∧
        t.kv.msg.get ⟨en.topicId, en.copySeq⟩ = some copy ∧ copy.payload = m.payload ∧
        copy.orderingKey = m.orderingKey
  | .acked => ∃ ackIds, ackCall s.kv i.op = some (subId, ackIds) ∧ Hit s.leases ackIds subId seq
  | .marked => ∃ ackIds j, ackCall s.kv i.op = some (subId, ackIds) ∧ j ≠ subId ∧
      Hit s.leases ackIds j seq
  | .stolen => ∃ j ackIds, ackCall s.kv i.op = some (j, ackIds) ∧ j ≠ subId ∧
      Hit s.leases ackIds subId seq
  | .modified d => ∃ ackIds seconds, modifyCall s.kv i.op = some (subId, ackIds, seconds) ∧
      Hit s.leases ackIds subId seq ∧ d = LeaseTable.extendedDeadline i.nowMs seconds
  | .dropped limit => ∃ grace, i.op = .sweepSubscription subId grace ∧
      limit = satSubI64 i.nowMs grace
  | .postponed limit _ => ∃ j grace, i.op = .sweepSubscription j grace ∧ j ≠ subId ∧
      limit = satSubI64 i.nowMs grace
  | .released => ∃ sid st, i.op = .closeStream sid ∧ s.streams.sessions.get sid = some st ∧
      st.info.subId = subId ∧ seq ∈ st.outstanding.keys
  | .reset pending => ∃ c, seekTarget s.kv i.op = some (subId, c) ∧
      (c.isDone seq = true → pending = false)
  | .recovered => i.op = .restart
  | .attached _ => s.kv.counter < subId
  | _ => True

structure SlotStep (s : Engine) (i : Input) (reply : Reply) (t : Engine) (subId seq : Nat)
    (e : Effect) : Prop where
  enabled : e.Enabled (reclaimPolicy s.kv subId) i.nowMs (s.slot subId seq)
  slot : t.slot subId seq = e.apply (s.slot subId seq)
  cause : Cause s i reply t subId seq e
  delivered : ∀ {ds d}, reply = .delivered subId ds → d ∈ ds → d.seq = seq →
    ∃ r, e = .granted r ∧ deliveriesOf ds seq = [d] ∧ d.ackId = encodeAckId subId seq r.attempts ∧
      d.deliveryAttempt = r.attempts
  granted : ∀ {r}, e = .granted r →
    (∃ ds d, reply = .delivered subId ds ∧ d ∈ ds ∧ d.seq = seq) ∨
      (∃ err, reply = .failed err) ∧ Refused s i subId
  modified : ∀ {ackIds seconds}, modifyCall s.kv i.op = some (subId, ackIds, seconds) →
    Hit s.leases ackIds subId seq → e = .modified (LeaseTable.extendedDeadline i.nowMs seconds)
  acked : ∀ {ackIds}, ackCall s.kv i.op = some (subId, ackIds) → Hit s.leases ackIds subId seq →
    reply = .done → e = .acked
  log : (∀ saved, e ≠ .forwarded saved) →
    logOf t.deadLettered subId seq = logOf s.deadLettered subId seq

structure Refines (s : Engine) (i : Input) (reply : Reply) (t : Engine) : Prop where
  wf : t.WellFormed
  counter : s.kv.counter ≤ t.kv.counter
  record : ∀ {id r'}, id ≤ s.kv.counter → t.kv.subs.get id = some r' →
    ∃ r, s.kv.subs.get id = some r ∧ identity r' = identity r ∧
      ((∀ name patch, i.op ≠ .updateSubscription name patch) → settings r' = settings r)
  slots : ∀ subId seq, ∃ e, SlotStep s i reply t subId seq e

section Retouch

variable {κ : Type} {key : SubscriptionRecord → κ} [IdentityKey key] {s : Engine} {kv' : Kv}

omit [IdentityKey key] in
theorem Retouched.present_eq {kv : Kv} (h : Retouched key kv kv') (topicId seq : Nat) :
    kv'.present topicId seq = kv.present topicId seq := by
  rw [Kv.present, Kv.present, TopicStore.currentTail, TopicStore.currentTail, h.msg, h.topicSeq]

theorem Retouched.pending_eq {kv : Kv} (h : Retouched key kv kv') (subId seq : Nat) :
    kv'.pending subId seq = kv.pending subId seq := by
  unfold Kv.pending
  rw [h.cursors]
  cases kv.cursors.get subId with
  | none => rfl
  | some c =>
    cases hr' : kv'.subs.get subId with
    | some r' =>
      obtain ⟨r, hr, _, hid⟩ := h.back hr'
      have ht : r'.topicId = r.topicId := congrArg (fun k => k.2.2.1) hid
      simp only [hr, ht, h.present_eq]
    | none =>
      have hn := h.subs subId
      rw [hr', Option.map_none] at hn
      rw [Option.map_eq_none_iff.mp hn.symm]

theorem Retouched.slot_eq (h : Retouched key s.kv kv') (subId seq : Nat) :
    ({ s with kv := kv' } : Engine).slot subId seq = s.slot subId seq := by
  simp only [Engine.slot, h.pending_eq, h.dlv]

theorem Retouched.engine (h : Retouched key s.kv kv') (hwf : s.WellFormed) :
    ({ s with kv := kv' } : Engine).WellFormed where
  kv := h.wellFormed hwf.kv
  healthy n := by
    rw [h.ok]
    exact hwf.healthy n
  anchored {id c} hc := by
    rw [h.cursors] at hc
    obtain ⟨r, hr⟩ := hwf.anchored hc
    have hs := h.subs id
    rw [hr, Option.map_some] at hs
    obtain ⟨r', hr', _⟩ := Option.map_eq_some_iff.mp hs
    exact ⟨r', hr'⟩
  coherent := hwf.coherent
  session hst := by
    obtain ⟨hid, hle, ht⟩ := hwf.session hst
    refine ⟨hid, hle.trans h.counter, fun r' hr' => ?_⟩
    obtain ⟨r, hr, _, hi⟩ := h.back hr'
    exact (congrArg (fun k => k.2.2.1) hi).trans (ht r hr)

end Retouch

theorem Retouched.settings_of {kv kv' : Kv} (h : Retouched settings kv kv') {id : Nat}
    {r' : SubscriptionRecord} (hr : kv'.subs.get id = some r') :
    ∃ r, kv.subs.get id = some r ∧ identity r' = identity r ∧ settings r' = settings r := by
  obtain ⟨r, hr', hk, hi⟩ := h.back hr
  exact ⟨r, hr', hi, hk⟩

/-- The activity time of the subscription is written after a delivery call. -/
theorem Refines.touched {s : Engine} {i : Input} {reply : Reply} {t : Engine} {kv' : Kv}
    (h : Refines s i reply t) (hr : Retouched settings t.kv kv') :
    Refines s i reply { t with kv := kv' } where
  wf := hr.engine h.wf
  counter := h.counter.trans hr.counter
  record {id r'} hid hr' := by
    obtain ⟨r₁, hr₁, hi₁, hs₁⟩ := hr.settings_of hr'
    obtain ⟨r, hr₀, hi, hs⟩ := h.record hid hr₁
    exact ⟨r, hr₀, hi₁.trans hi, fun hop => hs₁.trans (hs hop)⟩
  slots subId seq := by
    obtain ⟨e, he⟩ := h.slots subId seq
    refine ⟨e, he.enabled, (hr.slot_eq subId seq).trans he.slot, ?_, he.delivered, he.granted,
      he.modified, he.acked, he.log⟩
    have hc := he.cause
    cases e with
    | forwarded saved =>
      obtain ⟨hl, hf, r, m, en, name, dlq, copy, h1, h2, h3, h4, h5, h6, h7, h8⟩ := hc
      refine ⟨hl, hf, r, m, en, name, dlq, copy, h1, h2, h3, h4, h5, h6, ?_, h8⟩
      change kv'.msg.get _ = _
      rw [hr.msg, h7]
    | _ => exact hc

theorem Refines.restreamed {s : Engine} {i : Input} {reply : Reply} {t : Engine}
    {streams : StreamRegistry} (h : Refines s i reply t)
    (hst : ∀ {sid st}, streams.sessions.get sid = some st →
      ∃ st', t.streams.sessions.get sid = some st' ∧ st.info.subId = st'.info.subId ∧
        st.info.topicId = st'.info.topicId)
    (hid : streams.nextId = t.streams.nextId) :
    Refines s i reply { t with streams := streams } where
  wf := ⟨h.wf.kv, h.wf.healthy, h.wf.anchored, h.wf.coherent, fun {sid st} hs => by
    obtain ⟨st', hs', h1, h2⟩ := hst hs
    rw [h1, h2, hid]
    exact h.wf.session hs'⟩
  counter := h.counter
  record := h.record
  slots subId seq := by
    obtain ⟨e, he⟩ := h.slots subId seq
    refine ⟨e, he.enabled, he.slot, ?_, he.delivered, he.granted, he.modified, he.acked, he.log⟩
    have hc := he.cause
    cases e with
    | forwarded saved => exact hc
    | _ => exact hc

/-- An operation that is no delivery call. -/
structure Quiet (s : Engine) (i : Input) (reply : Reply) : Prop where
  reply : ∀ j ds, reply ≠ .delivered j ds
  modify : modifyCall s.kv i.op = none
  ack : ackCall s.kv i.op = none

theorem slotStep_of_quiet {s : Engine} {i : Input} {reply : Reply} {t : Engine}
    {subId seq : Nat} {e : Effect} (hq : Quiet s i reply)
    (he : e.Enabled (reclaimPolicy s.kv subId) i.nowMs (s.slot subId seq))
    (hslot : t.slot subId seq = e.apply (s.slot subId seq))
    (hc : Cause s i reply t subId seq e) (hg : ∀ r, e ≠ .granted r)
    (hlog : t.deadLettered = s.deadLettered) : SlotStep s i reply t subId seq e where
  enabled := he
  slot := hslot
  cause := hc
  delivered h := absurd h (hq.reply _ _)
  granted h := absurd h (hg _)
  modified h := by
    rw [hq.modify] at h
    cases h
  acked h := by
    rw [hq.ack] at h
    cases h
  log _ := by rw [hlog]

theorem refines_of_retouched {κ : Type} {key : SubscriptionRecord → κ} [IdentityKey key]
    {s : Engine} {i : Input} {reply : Reply} {kv' : Kv} (hwf : s.WellFormed)
    (hq : Quiet s i reply) (h : Retouched key s.kv kv')
    (hset : (∀ name patch, i.op ≠ .updateSubscription name patch) →
      Retouched settings s.kv kv') :
    Refines s i reply { s with kv := kv' } where
  wf := h.engine hwf
  counter := h.counter
  record {id r'} _ hr' := by
    obtain ⟨r, hr, _, hi⟩ := h.back hr'
    refine ⟨r, hr, hi, fun hop => ?_⟩
    obtain ⟨r₁, hr₁, _, hs⟩ := (hset hop).settings_of hr'
    rw [hr, Option.some.injEq] at hr₁
    rw [hr₁, hs]
  slots subId seq :=
    ⟨.idle, slotStep_of_quiet hq trivial (h.slot_eq subId seq) trivial (fun _ h => by cases h) rfl⟩

theorem refines_admin {s : Engine} {i : Input} {reply : Reply} {kv' : Kv} (hwf : s.WellFormed)
    (hq : Quiet s i reply) (h : Admin settings s.kv kv') :
    Refines s i reply { s with kv := kv' } :=
  refines_of_retouched hwf hq (h hwf.kv) fun _ => h hwf.kv

theorem refines_refl {s : Engine} {i : Input} {reply : Reply} (hwf : s.WellFormed)
    (hq : Quiet s i reply) : Refines s i reply s :=
  refines_admin hwf hq fun _ => Retouched.refl

end OpenPubusb
