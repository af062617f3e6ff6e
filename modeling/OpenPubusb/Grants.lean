import OpenPubusb.Deliveries
import OpenPubusb.StreamSteps

/-! Through which stream each lease was granted, read off the run: the lease table
does not say, and the streams keep books of their own. -/

namespace OpenPubusb

open Hoare

/-- A lease granted through a stream, and the size of its message. -/
structure Grant where
  streamId : Nat
  bytes : Nat
  deriving DecidableEq

def storedBytes (kv : Kv) (topicId seq : Nat) : Nat :=
  ((kv.msg.get ⟨topicId, seq⟩).map (·.payload.length)).getD 0

/-- What a lease call records for a message that it leases; a unary pull grants
through no stream. -/
def grantOf (s : Engine) (op : Op) (seq : Nat) : Option Grant :=
  match op with
  | .leaseForStream sid =>
    (s.streams.info sid).map fun info => ⟨sid, storedBytes s.kv info.topicId seq⟩
  | _ => none

/-- The transition leases the message: it hands it out, or fails after it has leased
it. -/
def Leases (tr : Transition) (subId seq : Nat) : Prop :=
  (leaseCall tr.pre tr.input.op).map Prod.fst = some subId ∧
    ((deliveryOf tr subId seq).isSome ∨
      (tr.post.slot subId seq).lease ≠ (tr.pre.slot subId seq).lease)

instance (tr : Transition) (subId seq : Nat) : Decidable (Leases tr subId seq) :=
  inferInstanceAs (Decidable (_ ∧ _))

theorem Leases.calls {tr : Transition} {subId seq : Nat} (h : Leases tr subId seq) :
    leaseCall tr.pre tr.input.op ≠ none := by
  intro hn
  have hsub := h.1
  rw [hn] at hsub
  cases hsub

def endsGrant (tr : Transition) (subId seq : Nat) : Bool :=
  match tr.input.op with
  | .restart => true
  | op =>
    match modifyCall tr.pre.kv op with
    | some (_, ackIds, seconds) => seconds ≤ 0 ∧ Hit tr.pre.leases ackIds subId seq
    | none => false

/-- Through which stream the lease of the message was granted after `tr`, when it was
`g` before. -/
def grantAfter (subId seq : Nat) (g : Option Grant) (tr : Transition) : Option Grant :=
  if tr.post.leases.get subId seq = none then none
  else if Leases tr subId seq then grantOf tr.pre tr.input.op seq
  else if endsGrant tr subId seq then none
  else g

/-- The stream grant that the lease of the message is under after the transitions
`trs`: a lease of the table that a stream was granted and that was not acked or nacked
since. -/
def grantIn (trs : List Transition) (subId seq : Nat) : Option Grant :=
  trs.foldl (grantAfter subId seq) none

theorem grantIn_append (trs : List Transition) (tr : Transition) (subId seq : Nat) :
    grantIn (trs ++ [tr]) subId seq = grantAfter subId seq (grantIn trs subId seq) tr := by
  rw [grantIn, List.foldl_append]
  rfl

theorem grantAfter_eq_some {subId seq : Nat} {g : Option Grant} {tr : Transition} {x : Grant}
    (h : grantAfter subId seq g tr = some x) :
    tr.post.leases.get subId seq ≠ none ∧
      (Leases tr subId seq ∧ grantOf tr.pre tr.input.op seq = some x ∨
        ¬ Leases tr subId seq ∧ endsGrant tr subId seq = false ∧ g = some x) := by
  unfold grantAfter at h
  split_ifs at h with hl hg he
  · exact ⟨hl, Or.inl ⟨hg, h⟩⟩
  · exact ⟨hl, Or.inr ⟨hg, by simpa using he, h⟩⟩

section Steps

variable {s : Engine} {i : Input} {reply : Reply} {t : Engine} {subId seq : Nat} {e : Effect}

theorem slot_lease_eq_none : (s.slot subId seq).lease = none ↔ s.leases.get subId seq = none :=
  Option.map_eq_none_iff

theorem SlotStep.granted_of_changed (h : SlotStep s i reply t subId seq e)
    (hcall : leaseCall s i.op ≠ none)
    (hne : (t.slot subId seq).lease ≠ (s.slot subId seq).lease) :
    (∃ r, e = .granted r) ∨ (t.slot subId seq).lease = none := by
  have hslot := h.slot
  have hc := h.cause
  have hother : ackCall s.kv i.op = none ∧ modifyCall s.kv i.op = none ∧
      seekTarget s.kv i.op = none := by
    rcases leaseCall_cases hcall with ⟨name, n, hop⟩ | ⟨sid, hop⟩
    · rw [hop]
      exact ⟨rfl, rfl, rfl⟩
    · rw [hop]
      exact ⟨rfl, rfl, rfl⟩
  cases e with
  | idle => exact absurd (by rw [hslot]; rfl) hne
  | granted r => exact Or.inl ⟨r, rfl⟩
  | forwarded saved => exact Or.inr (by rw [hslot]; rfl)
  | retired dropped => exact absurd (by rw [hslot]; rfl) hne
  | acked => exact Or.inr (by rw [hslot]; rfl)
  | marked => exact absurd (by rw [hslot]; rfl) hne
  | stolen => exact Or.inr (by rw [hslot]; rfl)
  | modified d =>
    obtain ⟨_, _, hm, _⟩ := hc
    rw [hother.2.1] at hm
    cases hm
  | dropped limit => exact Or.inr (by rw [hslot]; rfl)
  | postponed limit now =>
    obtain ⟨_, _, hop, _⟩ := hc
    rw [hop] at hcall
    exact absurd rfl hcall
  | released => exact Or.inr (by rw [hslot]; rfl)
  | reset pending => exact Or.inr (by rw [hslot]; rfl)
  | recovered =>
    have hop : i.op = .restart := hc
    rw [hop] at hcall
    exact absurd rfl hcall
  | attached pending => exact absurd (by rw [hslot]; rfl) hne

theorem SlotStep.granted_of_leases (h : SlotStep s i reply t subId seq e)
    (hl : Leases ⟨s, i, reply, t⟩ subId seq) (hsome : t.leases.get subId seq ≠ none) :
    ∃ r, e = .granted r := by
  have hcall : leaseCall s i.op ≠ none := hl.calls
  rcases hl.2 with hd | hne
  · obtain ⟨d, hd⟩ := Option.isSome_iff_exists.mp hd
    obtain ⟨ds, hr, hmem, hseq⟩ := delivers_of_deliveryOf hd
    obtain ⟨r, he, _⟩ := h.delivered hr hmem hseq
    exact ⟨r, he⟩
  · rcases h.granted_of_changed hcall hne with hg | hnone
    · exact hg
    · exact absurd (slot_lease_eq_none.mp hnone) hsome

theorem leases_of_delivered {sid : Nat} {st : SessionState} {ds : List Delivered} {d : Delivered}
    (hop : i.op = .leaseForStream sid) (hst : s.streams.sessions.get sid = some st)
    (hr : (step s i).1 = .delivered st.info.subId ds) (hd : d ∈ ds) (hseq : d.seq = seq) :
    Leases (Run.transition step s i) st.info.subId seq := by
  refine ⟨?_, Or.inl ?_⟩
  · simp only [Run.transition, hop, leaseCall, StreamRegistry.info, hst, Option.map_some]
  · by_contra hnone
    exact not_delivers_of_deliveryOf (Option.not_isSome_iff_eq_none.mp hnone) d ⟨ds, hr, hd, hseq⟩

/-- What a lease call leases is in its reply, unless the call fails halfway. -/
theorem delivered_of_leases (hwf : s.WellFormed) (href : ¬ Refused s i subId)
    (hl : Leases (Run.transition step s i) subId seq)
    (hsome : (step s i).2.leases.get subId seq ≠ none) :
    ∃ ds d, (step s i).1 = .delivered subId ds ∧ d ∈ ds ∧ d.seq = seq := by
  have hcall : leaseCall s i.op ≠ none := hl.calls
  have hown : NoForeignModify s i.op := by
    intro j ackIds secs hmod
    rcases leaseCall_cases hcall with ⟨name, n, hop⟩ | ⟨sid, hop⟩
    · rw [hop] at hmod
      cases hmod
    · rw [hop] at hmod
      cases hmod
  obtain ⟨e, he⟩ := (step_refines hwf hown).slots subId seq
  obtain ⟨r, hg⟩ := he.granted_of_leases hl hsome
  exact he.delivered_of_granted hg href

theorem grantOf_eq_some {op : Op} {g : Grant} (h : grantOf s op seq = some g) :
    op = .leaseForStream g.streamId ∧ ∃ st, s.streams.sessions.get g.streamId = some st ∧
      g.bytes = storedBytes s.kv st.info.topicId seq := by
  cases op with
  | leaseForStream sid =>
    obtain ⟨info, hinfo, rfl⟩ := Option.map_eq_some_iff.mp h
    obtain ⟨st, hst, rfl⟩ := Option.map_eq_some_iff.mp hinfo
    exact ⟨rfl, st, hst, rfl⟩
  | _ => cases h

theorem nextId_le_step (hwf : s.WellFormed) (hop : i.op ≠ .restart) :
    s.streams.nextId ≤ (step s i).2.streams.nextId := by
  have hs := step_streams hwf i
  unfold StreamEffect at hs
  split at hs
  · rcases hs with hs | ⟨info, _, hs⟩
    · rw [hs]
    · rw [hs]
      exact Nat.le_succ _
  · rw [hs, StreamRegistry.update, StreamRegistry.nextId_modifySession]
  · rcases hs with ⟨ds, _, hs⟩ | ⟨_, hs⟩
    · rw [hs, (sameStreams_recordLeasedAll ..).nextId]
    · rw [hs]
  · rcases hs with ⟨_, hs⟩ | ⟨_, hs⟩
    · rw [hs, (sameStreams_recordResolvedAll ..).nextId]
    · rw [hs]
  · rw [hs]
    split_ifs
    · rw [(sameStreams_recordResolvedAll ..).nextId]
    · exact le_rfl
  · rw [hs]
    exact le_rfl
  · next hr => exact absurd hr hop
  · rw [hs]

theorem grant_known_step (hwf : s.WellFormed) {g : Option Grant} {x : Grant}
    (hg : ∀ y, g = some y → y.streamId ≤ s.streams.nextId)
    (h : grantAfter subId seq g (Run.transition step s i) = some x) :
    x.streamId ≤ (step s i).2.streams.nextId := by
  obtain ⟨_, ⟨_, hx⟩ | ⟨_, hends, hx⟩⟩ := grantAfter_eq_some h
  · obtain ⟨hop, st, hst, _⟩ := grantOf_eq_some hx
    have hop : i.op = .leaseForStream x.streamId := hop
    refine (hwf.session hst).1.trans (nextId_le_step hwf ?_)
    rw [hop]
    exact fun h => by cases h
  · refine (hg x hx).trans (nextId_le_step hwf fun hop => ?_)
    have htrue : endsGrant (Run.transition step s i) subId seq = true := by
      simp only [endsGrant, Run.transition, hop]
    rw [htrue] at hends
    cases hends

/-- An acknowledgement on a stream that succeeds leaves no lease its ids name. -/
theorem step_streamAcknowledge (hwf : s.WellFormed) {sid j : Nat} {ackIds : List String}
    (hop : i.op = .streamAcknowledge sid j ackIds) (hok : ∀ err, (step s i).1 ≠ .failed err)
    (hhit : Hit s.leases ackIds subId seq) : (step s i).2.leases.get subId seq = none := by
  have h : Ensures (perform i.nowMs (.streamAcknowledge sid j ackIds)) s
      (fun _ t => t.leases.get subId seq = none) (fun _ _ => True) := by
    simp only [perform, PubSubService.streamAcknowledge, streamAcknowledge, ensures_bind,
      ensures_pure, ensures_modify]
    refine (ensures_acknowledge ackIds hwf.healthy hwf.coherent).mono (fun _ t h => ?_)
      (fun _ _ _ => trivial)
    simp only [PubSubService.touch, ensures_ignore, ensures_onKv]
    have hnone := (h.leases subId seq).1 hhit
    exact (keeps_touch j i.nowMs t.kv).mono (fun _ _ _ => hnone) (fun _ _ _ => hnone)
  unfold step at hok ⊢
  rw [hop] at hok ⊢
  cases hp : perform i.nowMs (.streamAcknowledge sid j ackIds) s with
  | ok r t => exact h.of_ok hp
  | error err t =>
    rw [hp] at hok
    exact absurd rfl (hok err)

theorem endsGrant_of_hit {sid j : Nat} {ackIds : List String} {seconds : Int} {tr : Transition}
    (hop : tr.input.op = .streamModifyAckDeadline sid j ackIds seconds) (hsec : seconds ≤ 0)
    (hhit : Hit tr.pre.leases ackIds subId seq) : endsGrant tr subId seq = true := by
  simp only [endsGrant, hop, modifyCall]
  exact decide_eq_true ⟨hsec, hhit⟩

theorem not_hit_of_grant (hwf : s.WellFormed) {sid : Nat} {ackIds : List String}
    (hcall : resolveCall i.op = some (sid, ackIds))
    (hok : ∀ j ids, i.op = .streamAcknowledge sid j ids → ∀ e, (step s i).1 ≠ .failed e)
    (hsome : (step s i).2.leases.get subId seq ≠ none)
    (hends : endsGrant (Run.transition step s i) subId seq = false) :
    ¬ Hit s.leases ackIds subId seq := by
  intro hhit
  cases hop : i.op with
  | streamAcknowledge id j ids =>
    rw [hop] at hcall
    cases hcall
    exact hsome (step_streamAcknowledge hwf hop (hok j ackIds hop) hhit)
  | streamModifyAckDeadline id j ids seconds =>
    rw [hop, resolveCall] at hcall
    split_ifs at hcall with hsec
    cases hcall
    rw [endsGrant_of_hit hop hsec hhit] at hends
    cases hends
  | _ =>
    rw [hop] at hcall
    cases hcall

end Steps

end OpenPubusb
