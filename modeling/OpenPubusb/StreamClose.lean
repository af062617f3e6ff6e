import OpenPubusb.Grants
import OpenPubusb.LeaseDeadlines
import OpenPubusb.PolicyFields
import OpenPubusb.Redelivery

/-! Closing a stream gives back what the stream tracks. That is what it was granted and
still holds, as long as nobody else deals with these messages. -/

namespace OpenPubusb

open Hoare

section Plan

variable {s t : Engine} {i : Input} {subId seq : Nat}

/-- The call is to lease the message, by the state before it. -/
def PlansLease (s : Engine) (i : Input) (subId seq : Nat) : Prop :=
  ∃ a c, scanArgs s i = some a ∧ a.subId = subId ∧ s.kv.cursors.get subId = some c ∧
    ∃ v ∈ planned a s c, v.seq = seq ∧ v.verdict.leases = true

/-- A scan touches no lease but those of the messages that it leases or sends on. -/
theorem ScanExact.lease_cases {a : LeaseArgs} {c : CursorRecord} {vs : List Judged}
    {sc sc' : Scan} (h : ScanExact a vs s sc t sc') (hvs : ∀ v ∈ vs, v ∈ planned a s c) (j q : Nat) :
    t.leases.get j q = s.leases.get j q ∨ t.leases.get j q = none ∨
      j = a.subId ∧ ∃ v ∈ planned a s c, v.seq = q ∧ v.verdict.leases = true := by
  by_cases hv : j = a.subId ∧ ∃ v ∈ vs, v.seq = q
  · obtain ⟨rfl, v, hv, rfl⟩ := hv
    have hl := (h.visited v hv).1
    cases hverdict : v.verdict with
    | lease n => exact Or.inr (Or.inr ⟨rfl, v, hvs v hv, rfl, by rw [hverdict]; rfl⟩)
    | forward dlq n =>
      rw [hverdict] at hl
      exact Or.inr (Or.inl hl)
    | _ =>
      rw [hverdict] at hl
      exact Or.inl hl
  · have hother := h.others j q fun hj v hv' he => hv ⟨hj, v, hv', he⟩
    exact Or.inl hother.1

theorem LeaseExact.lease_cases {a : LeaseArgs} {c : CursorRecord} {out : List Delivered}
    (h : LeaseExact a s c out t) (j q : Nat) :
    t.leases.get j q = s.leases.get j q ∨ t.leases.get j q = none ∨
      j = a.subId ∧ ∃ v ∈ planned a s c, v.seq = q ∧ v.verdict.leases = true := by
  obtain ⟨u, sc, hscan, _, _, rfl⟩ := h
  have hu := hscan.lease_cases (fun _ h => h) j q
  unfold Engine.withCursor
  split_ifs
  · exact hu
  · exact hu

theorem LeaseBroke.lease_cases {a : LeaseArgs} {c : CursorRecord} {e : Error}
    (hh : s.kv.Healthy) (h : LeaseBroke a s c e t) (j q : Nat) :
    t.leases.get j q = s.leases.get j q ∨ t.leases.get j q = none ∨
      j = a.subId ∧ ∃ v ∈ planned a s c, v.seq = q ∧ v.verdict.leases = true := by
  rcases h with ⟨pre, v, post, u, sc, hvs, hscan, hbroke⟩ | ⟨u, sc, hscan, _, hbad, _⟩
  · rw [(hbroke.refused (hscan.healthy hh)).1]
    exact hscan.lease_cases (fun x hx => by rw [hvs]; exact List.mem_append_left _ hx) j q
  · rw [hscan.healthy hh] at hbad
    cases hbad

theorem plansLease_of_leases (hwf : s.WellFormed)
    (hl : Leases (Run.transition step s i) subId seq)
    (hsome : (step s i).2.leases.get subId seq ≠ none) : PlansLease s i subId seq := by
  have hcall : leaseCall s i.op ≠ none := hl.calls
  obtain ⟨hsub, hl⟩ := hl
  by_contra hno
  have hidle : (∀ ds d, (step s i).1 = .delivered subId ds → d ∈ ds → d.seq ≠ seq) ∧
      ((step s i).2.leases.get subId seq = s.leases.get subId seq ∨
        (step s i).2.leases.get subId seq = none) := by
    rcases step_scan hcall with ⟨hleases, hds⟩ | ⟨a, c, hargs, hc, hmade⟩
    · refine ⟨fun ds d hr hd => ?_, Or.inl (by rw [hleases])⟩
      rw [hds _ _ hr] at hd
      cases hd
    · have ha : a.subId = subId := by
        have h := scanArgs_subId hargs
        simp only [Run.transition] at hsub
        rw [hsub] at h
        exact (Option.some.inj h).symm
      have hplan : ¬ ∃ v ∈ planned a s c, v.seq = seq ∧ v.verdict.leases = true :=
        fun hv => hno ⟨a, c, hargs, ha, ha ▸ hc, hv⟩
      rcases hmade with ⟨out, u, hexact, hr, hu⟩ | ⟨e, u, hbroke, hr, hu⟩
      · rw [hu, hr]
        refine ⟨fun ds d hr' hd hseq => hplan ?_, ?_⟩
        · cases hr'
          obtain ⟨u', sc, hscan, rfl, _⟩ := hexact
          exact hscan.mem_out.mp ⟨d, hd, hseq⟩
        · rcases hexact.lease_cases subId seq with hsame | hnone | ⟨_, hv⟩
          · exact Or.inl hsame
          · exact Or.inr hnone
          · exact absurd hv hplan
      · rw [hu, hr]
        refine ⟨fun _ _ hr' => ?_, ?_⟩
        · cases hr'
        have hh : (s.cacheFilter a.subId).kv.Healthy := hwf.healthy
        rcases hbroke.lease_cases hh subId seq with hsame | hnone | ⟨_, hv⟩
        · exact Or.inl hsame
        · exact Or.inr hnone
        · exact absurd hv hplan
  rcases hl with hd | hchanged
  · obtain ⟨d, hd⟩ := Option.isSome_iff_exists.mp hd
    obtain ⟨ds, hr, hmem, hseq⟩ := delivers_of_deliveryOf hd
    exact hidle.1 ds d hr hmem hseq
  · rcases hidle.2 with hsame | hnone
    · apply hchanged
      simp only [Run.transition, Engine.slot, hsame]
    · exact hsome hnone

end Plan

section Moves

variable {s : Engine} {i : Input} {reply : Reply} {t : Engine} {subId seq sid : Nat} {e : Effect}

/-- Whatever its ids name, a deadline change begins and ends no lease, and it writes no
rows but those of the subscription that it is sent to. -/
structure Postponed (subId : Nat) (ackIds : List String) (s t : Engine) : Prop where
  leases : ∀ j q, t.leases.get j q = none ↔ s.leases.get j q = none
  dlv : ∀ j q, ¬ (j = subId ∧ ∃ x, Hit s.leases ackIds x q) →
    t.kv.dlv.get ⟨j, q⟩ = s.kv.dlv.get ⟨j, q⟩

theorem ensures_modify_postponed (ackIds : List String) (nowMs seconds : Int)
    (hh : s.kv.Healthy) (hc : s.leases.Coherent) (E : Error → Engine → Prop) :
    Ensures (modifyAckDeadline subId ackIds nowMs seconds) s
      (fun _ t => Postponed subId ackIds s t) E := by
  induction ackIds generalizing s with
  | nil => exact ⟨fun _ _ => Iff.rfl, fun _ _ _ => rfl⟩
  | cons ackId ackIds ih =>
    simp only [modifyAckDeadline, setLeases, ensures_bind, ensures_get, ensures_modify]
    rcases s.leases.resolveAck_cases ackId
      (fun i q l => (s.leases.reschedule i q l (LeaseTable.extendedDeadline nowMs seconds),
        .applied { l with deadlineMs := LeaseTable.extendedDeadline nowMs seconds })) with
      ⟨i, q, l, hl, hd, he⟩ | ⟨hno, he, hout⟩
    · have hext : s.leases.extend ackId nowMs seconds =
          (s.leases.reschedule i q l (LeaseTable.extendedDeadline nowMs seconds),
            .applied { l with deadlineMs := LeaseTable.extendedDeadline nowMs seconds }) := he
      have hseq : l.seq = q := (hc.keyed hl).2
      have hhit : Hit s.leases (ackId :: ackIds) i q := ⟨ackId, List.mem_cons_self, l, hl, hd⟩
      have hrest : ∀ x p, Hit (s.leases.reschedule i q l
          (LeaseTable.extendedDeadline nowMs seconds)) ackIds x p →
          Hit s.leases (ackId :: ackIds) x p := by
        rintro x p ⟨id, hid, hname⟩
        exact ⟨id, List.mem_cons_of_mem _ hid, (names_reschedule hl _).mp hname⟩
      simp only [hext, ensures_bind, ensures_onKv, putDlv, ensures_kvWrite_healthy hh, hseq]
      refine (@ih { s with
        leases := s.leases.reschedule i q l (LeaseTable.extendedDeadline nowMs seconds)
        kv := { s.kv.tick with
          dlv := s.kv.dlv.insert ⟨subId, q⟩
            ⟨LeaseTable.extendedDeadline nowMs seconds, l.attempts, l.generation⟩ } }
        (fun n => hh n) (hc.reschedule hl _)).mono (fun _ t h => ⟨fun j p => ?_, fun j p hno => ?_⟩)
        (fun _ _ h => h)
      · rw [h.leases, LeaseTable.get_reschedule]
        split_ifs with hk
        · rw [hk.1, hk.2, hl]
          simp
        · rfl
      · rw [h.dlv j p fun hk => hno ⟨hk.1, hk.2.imp fun x hx => hrest x p hx⟩]
        simp only [SortedMap.get_insert, RowKey.mk.injEq]
        refine if_neg fun hk => hno ⟨hk.1, i, ?_⟩
        rw [hk.2]
        exact hhit
    · have hext : (s.leases.extend ackId nowMs seconds).1 = s.leases := he
      have hcons : ∀ x p, Hit s.leases ackIds x p → Hit s.leases (ackId :: ackIds) x p :=
        fun x p h => h.imp fun _ hid => ⟨List.mem_cons_of_mem _ hid.1, hid.2⟩
      rw [hext]
      have hskip : Ensures (modifyAckDeadline subId ackIds nowMs seconds) s
          (fun _ t => Postponed subId (ackId :: ackIds) s t) E := by
        refine (ih hh hc).mono (fun _ t h => ⟨h.leases, fun j p hno => h.dlv j p fun hk => ?_⟩)
          (fun _ _ h => h)
        exact hno ⟨hk.1, hk.2.imp fun x hx => hcons x p hx⟩
      cases ho : (s.leases.extend ackId nowMs seconds).2 with
      | applied l => exact absurd ho (hout l)
      | _ => exact hskip

theorem step_modify_postponed (hwf : s.WellFormed) {ackIds : List String} {seconds : Int}
    (hcall : modifyCall s.kv i.op = some (subId, ackIds, seconds)) :
    Postponed subId ackIds s (step s i).2 := by
  refine ensures_step (ensures_perform_modify hwf hcall
    (fun E => ensures_modify_postponed ackIds i.nowMs seconds hwf.healthy hwf.coherent E)
    fun t u h hl hd _ => ⟨?_, ?_⟩)
  · rw [hl]
    exact h.leases
  · rw [hd]
    exact h.dlv

/-- How the lease and the row of a message may come and go in one step. -/
structure SlotMove (s : Engine) (i : Input) (t : Engine) (subId seq : Nat) : Prop where
  begun : s.leases.get subId seq = none → t.leases.get subId seq ≠ none →
    Leases (Run.transition step s i) subId seq
  ended : s.leases.get subId seq ≠ none → t.leases.get subId seq = none →
    t.kv.dlv.get ⟨subId, seq⟩ = none ∨
    (∃ j ackIds, ackCall s.kv i.op = some (j, ackIds) ∧ j ≠ subId ∧ Hit s.leases ackIds subId seq) ∨
    ∃ grace l, i.op = .sweepSubscription subId grace ∧ s.leases.get subId seq = some l ∧
      l.deadlineMs ≤ satSubI64 i.nowMs grace
  rowless : s.leases.get subId seq = none → s.kv.dlv.get ⟨subId, seq⟩ = none →
    t.leases.get subId seq = none → t.kv.dlv.get ⟨subId, seq⟩ = none ∨
    ∃ j ackIds seconds, modifyCall s.kv i.op = some (subId, ackIds, seconds) ∧ j ≠ subId ∧
      Hit s.leases ackIds j seq

theorem Postponed.slotMove {ackIds : List String} {seconds : Int}
    (hop : modifyCall s.kv i.op = some (sid, ackIds, seconds)) (h : Postponed sid ackIds s t) : SlotMove s i t subId seq where
  begun hnone hsome := absurd ((h.leases subId seq).mpr hnone) hsome
  ended hsome hnone := absurd ((h.leases subId seq).mp hnone) hsome
  rowless hnone hrow _ := by
    by_cases hk : subId = sid ∧ ∃ x, Hit s.leases ackIds x seq
    · obtain ⟨rfl, j, hhit⟩ := hk
      refine Or.inr ⟨j, ackIds, seconds, hop, fun hj => ?_, hhit⟩
      obtain ⟨id, _, l, hl, _⟩ := hhit
      rw [hj, hnone] at hl
      cases hl
    · rw [h.dlv subId seq hk]
      exact Or.inl hrow

theorem SlotStep.begun (h : SlotStep s i (step s i).1 (step s i).2 subId seq e)
    (hop : i.op ≠ .restart) (hnone : s.leases.get subId seq = none)
    (hsome : (step s i).2.leases.get subId seq ≠ none) :
    Leases (Run.transition step s i) subId seq := by
  have hold := slot_lease_eq_none.mpr hnone
  have hnew : (e.apply (s.slot subId seq)).lease ≠ none := by
    rw [← h.slot]
    exact fun hn => hsome (slot_lease_eq_none.mp hn)
  have hc := h.cause
  cases e with
  | granted r =>
    obtain ⟨secs, hcall, _⟩ := hc
    refine ⟨?_, Or.inr ?_⟩
    · simp only [Run.transition, hcall, Option.map_some]
    · simp only [Run.transition, hold]
      exact fun hn => hsome (slot_lease_eq_none.mp hn)
  | recovered => exact absurd hc hop
  | modified d => exact absurd (by simp [Effect.apply, hold]) hnew
  | postponed limit now => exact absurd (by simp [Effect.apply, hold]) hnew
  | idle => exact absurd hold hnew
  | retired dropped => exact absurd hold hnew
  | marked => exact absurd hold hnew
  | attached pending => exact absurd hold hnew
  | _ => exact absurd rfl hnew

theorem SlotStep.ended (h : SlotStep s i (step s i).1 (step s i).2 subId seq e)
    (hop : i.op ≠ .restart) (hsome : s.leases.get subId seq ≠ none)
    (hnone : (step s i).2.leases.get subId seq = none) :
    (step s i).2.kv.dlv.get ⟨subId, seq⟩ = none ∨
    (∃ j ackIds, ackCall s.kv i.op = some (j, ackIds) ∧ j ≠ subId ∧ Hit s.leases ackIds subId seq) ∨
    ∃ grace l, i.op = .sweepSubscription subId grace ∧ s.leases.get subId seq = some l ∧
      l.deadlineMs ≤ satSubI64 i.nowMs grace := by
  have hold : (s.slot subId seq).lease ≠ none := fun hn => hsome (slot_lease_eq_none.mp hn)
  have hnew : (e.apply (s.slot subId seq)).lease = none := by
    rw [← h.slot]
    exact slot_lease_eq_none.mpr hnone
  have hrow : (step s i).2.kv.dlv.get ⟨subId, seq⟩ = (e.apply (s.slot subId seq)).row :=
    congrArg Slot.row h.slot
  have hc := h.cause
  have hen := h.enabled
  cases e with
  | stolen => exact Or.inr (Or.inl hc)
  | dropped limit =>
    obtain ⟨grace, hsweep, rfl⟩ := hc
    obtain ⟨r, hr, hdue⟩ := hen
    obtain ⟨l, hl, rfl⟩ := Option.map_eq_some_iff.mp hr
    exact Or.inr (Or.inr ⟨grace, l, hsweep, hl, hdue⟩)
  | recovered => exact absurd hc hop
  | granted r => cases hnew
  | modified d => exact absurd (Option.map_eq_none_iff.mp hnew) hold
  | postponed limit now => exact absurd (Option.map_eq_none_iff.mp hnew) hold
  | idle => exact absurd hnew hold
  | retired dropped => exact absurd hnew hold
  | marked => exact absurd hnew hold
  | attached pending => exact absurd hnew hold
  | _ => exact Or.inl hrow

theorem SlotStep.rowless (h : SlotStep s i (step s i).1 (step s i).2 subId seq e)
    (hop : i.op ≠ .restart) (hlease : s.leases.get subId seq = none)
    (hrow : s.kv.dlv.get ⟨subId, seq⟩ = none)
    (hnone : (step s i).2.leases.get subId seq = none) :
    (step s i).2.kv.dlv.get ⟨subId, seq⟩ = none := by
  have hold := slot_lease_eq_none.mpr hlease
  have hrow : (s.slot subId seq).row = none := hrow
  have hnew : (e.apply (s.slot subId seq)).lease = none := by
    rw [← h.slot]
    exact slot_lease_eq_none.mpr hnone
  have hafter : (step s i).2.kv.dlv.get ⟨subId, seq⟩ = (e.apply (s.slot subId seq)).row :=
    congrArg Slot.row h.slot
  rw [hafter]
  have hc := h.cause
  cases e with
  | granted r => cases hnew
  | recovered => exact absurd hc hop
  | modified d => exact hnew
  | retired dropped =>
    simp only [Effect.apply, hrow]
    split_ifs <;> rfl
  | idle => exact hrow
  | stolen => exact hrow
  | dropped limit => exact hrow
  | postponed limit now => exact hrow
  | attached pending => exact hrow
  | _ => rfl

theorem step_slotMove (hwf : s.WellFormed) (hop : i.op ≠ .restart) (subId seq : Nat) :
    SlotMove s i (step s i).2 subId seq := by
  cases hcall : modifyCall s.kv i.op with
  | some call =>
    obtain ⟨j, ackIds, seconds⟩ := call
    exact (step_modify_postponed hwf hcall).slotMove hcall
  | none =>
    have hown : NoForeignModify s i.op := by
      intro j ackIds seconds h
      rw [hcall] at h
      cases h
    obtain ⟨e, he⟩ := (step_refines hwf hown).slots subId seq
    exact ⟨he.begun hop, he.ended hop, fun hl hr hn => Or.inl (he.rowless hop hl hr hn)⟩

end Moves

/-- The message is leased through the stream: it was granted there, and neither acked nor
nacked since. -/
def HeldBy (trs : List Transition) (sid subId seq : Nat) : Prop :=
  (grantIn trs subId seq).map Grant.streamId = some sid

instance (trs : List Transition) (sid subId seq : Nat) : Decidable (HeldBy trs sid subId seq) :=
  inferInstanceAs (Decidable (_ = _))

def SessionState.tracks (st : SessionState) (seq : Nat) : Prop := st.outstanding.get seq ≠ none

theorem SessionState.mem_keys {st : SessionState} {seq : Nat} :
    seq ∈ st.outstanding.keys ↔ st.tracks seq :=
  SortedMap.mem_keys.trans Option.ne_none_iff_exists'.symm

/-- Closing the stream takes the leases that it holds, and their rows, and no other. -/
structure ClosesOwn (trs : List Transition) (s : Engine) (sid : Nat) (t : Engine) : Prop where
  released : ∀ j q, HeldBy trs sid j q → s.leases.get j q ≠ none ∧
    t.leases.get j q = none ∧ t.kv.dlv.get ⟨j, q⟩ = none
  kept : ∀ j q, ¬ HeldBy trs sid j q → t.leases.get j q = s.leases.get j q ∧
    t.kv.dlv.get ⟨j, q⟩ = s.kv.dlv.get ⟨j, q⟩

/-- The step does nothing to the message that the stream does not get to know. -/
structure LeavesAlone (sid : Nat) (s : Engine) (i : Input) (subId seq : Nat) : Prop where
  leased : i.op ≠ .leaseForStream sid → ¬ PlansLease s i subId seq
  nacked : ∀ j ackIds seconds, modifyCall s.kv i.op = some (j, ackIds, seconds) → seconds ≤ 0 →
    Hit s.leases ackIds subId seq → resolveCall i.op = some (sid, ackIds)
  acked : ∀ j ackIds, ackCall s.kv i.op = some (j, ackIds) → Hit s.leases ackIds subId seq →
    j = subId
  /-- No row is written for a message that is not leased. -/
  modified : ∀ j ackIds seconds, modifyCall s.kv i.op = some (subId, ackIds, seconds) →
    s.leases.get subId seq = none → ¬ Hit s.leases ackIds j seq
  swept : ∀ grace l, i.op = .sweepSubscription subId grace → s.leases.get subId seq = some l →
    satSubI64 i.nowMs grace < l.deadlineMs

/-- What the steps before the stream is closed are to be like, after the transitions
`trs`. -/
structure KeepsBooks (sid : Nat) (trs : List Transition) (s : Engine) (i : Input) : Prop where
  /-- An id sent on the stream for a message that it holds is the id of that lease. -/
  named : ∀ ackIds st, resolveCall i.op = some (sid, ackIds) →
    s.streams.sessions.get sid = some st → ∀ ackId ∈ ackIds, ∀ j q n,
      decodeAckId ackId = some (j, q, n) → HeldBy trs sid st.info.subId q →
      s.leases.Names ackId st.info.subId q
  /-- A lease call of the stream that leases a message meets no undeliverable one. -/
  completes : ∀ a c, i.op = .leaseForStream sid → scanArgs s i = some a →
    s.kv.cursors.get a.subId = some c → (∃ v ∈ planned a s c, v.verdict.leases = true) →
    NoneUndeliverable a s c
  alone : ∀ st q, s.streams.sessions.get sid = some st → st.tracks q →
    LeavesAlone sid s i st.info.subId q

/-- The books of the stream: it tracks what it holds, and of what else it tracks there is
neither a lease nor a row. -/
structure Books (sid : Nat) (trs : List Transition) (s : Engine) : Prop where
  wf : s.WellFormed
  known : ∀ j q g, grantIn trs j q = some g → g.streamId ≤ s.streams.nextId
  live : ∀ j q, grantIn trs j q ≠ none → s.leases.get j q ≠ none
  held : ∀ j q, HeldBy trs sid j q → ∃ st, s.streams.sessions.get sid = some st ∧
    st.info.subId = j ∧ st.tracks q
  tracked : ∀ st q, s.streams.sessions.get sid = some st → st.tracks q →
    HeldBy trs sid st.info.subId q ∨
      s.leases.get st.info.subId q = none ∧ s.kv.dlv.get ⟨st.info.subId, q⟩ = none

section Steps

variable {sid : Nat} {trs : List Transition} {s : Engine} {i : Input}

theorem step_closeStream (hwf : s.WellFormed) (hop : i.op = .closeStream sid) :
    (∀ st, s.streams.sessions.get sid = some st →
      Released st.info.subId (· ∈ st.outstanding.keys) s
        { (step s i).2 with streams := s.streams }) ∧
    (s.streams.sessions.get sid = none →
      (step s i).2.leases = s.leases ∧ (step s i).2.kv = s.kv) := by
  have h : Ensures (perform i.nowMs (.closeStream sid)) s
      (fun _ t => (∀ st, s.streams.sessions.get sid = some st →
        Released st.info.subId (· ∈ st.outstanding.keys) s { t with streams := s.streams }) ∧
        (s.streams.sessions.get sid = none → t.leases = s.leases ∧ t.kv = s.kv))
      (fun _ _ => False) := by
    simp only [perform, onStreamClosed, setStreams, ensures_bind, ensures_pure, ensures_get,
      ensures_modify]
    cases hst : s.streams.sessions.get sid with
    | none =>
      have hnone : (s.streams.close sid).2 = none := by
        simp only [StreamRegistry.close, hst, Option.map_none]
      simp only [hnone, ensures_pure]
      exact ⟨fun _ h => (by cases h), fun _ => ⟨trivial, trivial⟩⟩
    | some st =>
      have hsome : (s.streams.close sid).2 = some (st.info.subId, st.outstanding.keys) := by
        simp only [StreamRegistry.close, hst, Option.map_some]
      simp only [hsome]
      refine (@ensures_releaseAll { s with streams := (s.streams.close sid).1 } st.info.subId
        st.outstanding.keys hwf.healthy _).mono (fun _ t ht => ⟨fun st' hst' => ?_, fun h => by cases h⟩)
        (fun _ _ h => h)
      cases hst'
      exact ⟨ht.leases, ht.dlv, ht.coherent, ht.rest, rfl, ht.log⟩
  unfold step
  rw [hop]
  cases hp : perform i.nowMs (.closeStream sid) s with
  | ok r t => exact h.of_ok hp
  | error err t => exact (h.of_error hp).elim

theorem Books.closesOwn (h : Books sid trs s) (hop : i.op = .closeStream sid) :
    ClosesOwn trs s sid (step s i).2 := by
  obtain ⟨hopen, hclosed⟩ := step_closeStream h.wf hop
  refine ⟨fun j q hheld => ?_, fun j q hfree => ?_⟩
  · obtain ⟨st, hst, rfl, htracks⟩ := h.held j q hheld
    have hrel := hopen st hst
    have hmem := SessionState.mem_keys.mpr htracks
    refine ⟨h.live _ q fun hn => ?_, (hrel.leases _ q).1 ⟨rfl, hmem⟩, (hrel.dlv _ q).1 ⟨rfl, hmem⟩⟩
    rw [HeldBy, hn] at hheld
    cases hheld
  · cases hst : s.streams.sessions.get sid with
    | none =>
      obtain ⟨hl, hkv⟩ := hclosed hst
      rw [hl, hkv]
      exact ⟨rfl, rfl⟩
    | some st =>
      have hrel := hopen st hst
      by_cases hk : j = st.info.subId ∧ q ∈ st.outstanding.keys
      · have hl := (hrel.leases j q).1 hk
        have hr := (hrel.dlv j q).1 hk
        obtain ⟨rfl, hmem⟩ := hk
        have hfree := (h.tracked st q hst (SessionState.mem_keys.mp hmem)).resolve_left hfree
        exact ⟨hl.trans hfree.1.symm, hr.trans hfree.2.symm⟩
      · exact ⟨(hrel.leases j q).2 hk, (hrel.dlv j q).2 hk⟩

theorem tracks_leasedAll {st : SessionState} {ds : List Delivered} {q : Nat} :
    (leasedAll st ds).tracks q ↔ st.tracks q ∨ q ∈ ds.map Delivered.seq := by
  induction ds generalizing st with
  | nil => simp [leasedAll]
  | cons d ds ih =>
    have hone : (StreamRegistry.leased st d.seq d.message.payload.length).tracks q ↔
        st.tracks q ∨ q = d.seq := by
      unfold SessionState.tracks StreamRegistry.leased
      simp only [SortedMap.get_insert]
      split_ifs with hq
      · simp [hq]
      · simp [hq]
    have hrest := @ih (StreamRegistry.leased st d.seq d.message.payload.length)
    rw [List.map_cons, List.mem_cons, ← or_assoc, ← hone]
    exact hrest

theorem session_kept (hwf : s.WellFormed) {st : SessionState}
    (hst : s.streams.sessions.get sid = some st) (hrestart : i.op ≠ .restart)
    (hclose : i.op ≠ .closeStream sid) :
    ∃ st', (step s i).2.streams.sessions.get sid = some st' := by
  apply Option.isSome_iff_exists.mp
  have hsome : (s.streams.sessions.get sid).isSome := by rw [hst]; rfl
  have hs := step_streams hwf i
  unfold StreamEffect at hs
  split at hs
  · rcases hs with hs | ⟨info, _, hs⟩
    · rwa [hs]
    · rw [hs, StreamRegistry.openStream, SortedMap.get_insert]
      split_ifs
      · rfl
      · exact hsome
  · rw [hs, StreamRegistry.update, StreamRegistry.get_modifySession]
    split_ifs
    · rwa [Option.isSome_map]
    · exact hsome
  · rcases hs with ⟨ds, _, hs⟩ | ⟨_, hs⟩
    · rw [hs, get_recordLeasedAll]
      split_ifs
      · rwa [Option.isSome_map]
      · exact hsome
    · rwa [hs]
  · rcases hs with ⟨_, hs⟩ | ⟨_, hs⟩
    · rw [hs, get_recordResolvedAll]
      split_ifs
      · rwa [Option.isSome_map]
      · exact hsome
    · rwa [hs]
  · rw [hs]
    split_ifs
    · rw [get_recordResolvedAll]
      split_ifs
      · rwa [Option.isSome_map]
      · exact hsome
    · exact hsome
  · next id hop =>
    rw [hs, StreamRegistry.close, SortedMap.get_erase]
    split_ifs with hid
    · rw [hid] at hclose
      exact absurd hop hclose
    · exact hsome
  · next hop => exact absurd hop hrestart
  · rwa [hs]

theorem delivered_of_plan (hwf : s.WellFormed) {j q : Nat}
    (hdone : ∀ a c, scanArgs s i = some a → s.kv.cursors.get a.subId = some c →
      (∃ v ∈ planned a s c, v.verdict.leases = true) → NoneUndeliverable a s c)
    (hl : Leases (Run.transition step s i) j q) (hsome : (step s i).2.leases.get j q ≠ none) :
    ∃ ds d, (step s i).1 = .delivered j ds ∧ d ∈ ds ∧ d.seq = q := by
  obtain ⟨a, c, hargs, rfl, hc, v, hv, _, hleases⟩ := plansLease_of_leases hwf hl hsome
  apply delivered_of_leases hwf ?_ hl hsome
  rintro ⟨a', c', hargs', _, hc', hne⟩
  rw [hargs, Option.some.injEq] at hargs'
  subst hargs'
  rw [hc, Option.some.injEq] at hc'
  subst hc'
  exact hne (hdone a c hargs hc ⟨v, hv, hleases⟩)

theorem heldBy_append {tr : Transition} {j q : Nat} : HeldBy (trs ++ [tr]) sid j q ↔
    ∃ g, grantAfter j q (grantIn trs j q) tr = some g ∧ g.streamId = sid := by
  rw [HeldBy, grantIn_append, Option.map_eq_some_iff]

theorem Books.held_step (h : Books sid trs s) (hc : KeepsBooks sid trs s i) {j q : Nat}
    (hheld : HeldBy (trs ++ [Run.transition step s i]) sid j q) :
    ∃ st', (step s i).2.streams.sessions.get sid = some st' ∧ st'.info.subId = j ∧
      st'.tracks q := by
  obtain ⟨g, hg, hsid⟩ := heldBy_append.mp hheld
  obtain ⟨hsome, ⟨hleases, hof⟩ | ⟨hnot, hends, hold⟩⟩ := grantAfter_eq_some hg
  · obtain ⟨hop, st, hst, _⟩ := grantOf_eq_some hof
    rw [hsid] at hop hst
    have hop : i.op = .leaseForStream sid := hop
    have hst : s.streams.sessions.get sid = some st := hst
    have hj : j = st.info.subId := by
      have hcall := hleases.1
      simp only [Run.transition, hop, leaseCall, StreamRegistry.info, hst, Option.map_some,
        Option.some.injEq] at hcall
      exact hcall.symm
    obtain ⟨ds, d, hr, hd, hseq⟩ :=
      delivered_of_plan h.wf (fun a c => hc.completes a c hop) hleases hsome
    obtain ⟨st', hst'⟩ := session_kept h.wf hst (by rw [hop]; simp) (by rw [hop]; simp)
    refine ⟨st', hst', ?_⟩
    cases sessionStep h.wf hst' with
    | opened hnew =>
      have hle := (h.wf.session hst).1
      omega
    | kept _ _ _ _ _ _ hidle =>
      obtain ⟨e, he⟩ := hidle hop
      rw [hr] at he
      cases he
    | leased st₁ hst₁ ds₁ _ hr₁ hst₁' =>
      rw [hst, Option.some.injEq] at hst₁
      subst hst₁
      rw [hr] at hr₁
      cases hr₁
      subst hst₁'
      rw [leasedAll_info]
      exact ⟨rfl, tracks_leasedAll.mpr (Or.inr (List.mem_map.mpr ⟨d, hd, hseq⟩))⟩
    | resolved _ _ _ hcall =>
      rw [hop] at hcall
      cases hcall
  · have hbefore : HeldBy trs sid j q := by rw [HeldBy, hold, Option.map_some, hsid]
    obtain ⟨st, hst, hsub, htracks⟩ := h.held j q hbefore
    have hrestart : i.op ≠ .restart := by
      intro hop
      simp only [endsGrant, Run.transition, hop] at hends
      cases hends
    have hclose : i.op ≠ .closeStream sid := by
      intro hop
      exact hsome ((h.closesOwn hop).released j q hbefore).2.1
    obtain ⟨st', hst'⟩ := session_kept h.wf hst hrestart hclose
    refine ⟨st', hst', ?_⟩
    cases sessionStep h.wf hst' with
    | opened hnew =>
      have hle := (h.wf.session hst).1
      omega
    | kept st₁ hst₁ hsub₁ _ hout _ _ =>
      rw [hst, Option.some.injEq] at hst₁
      subst hst₁
      rw [SessionState.tracks, hout]
      exact ⟨hsub₁.trans hsub, htracks⟩
    | leased st₁ hst₁ ds _ _ hst₁' =>
      rw [hst, Option.some.injEq] at hst₁
      subst hst₁
      subst hst₁'
      rw [leasedAll_info]
      exact ⟨hsub, tracks_leasedAll.mpr (Or.inl htracks)⟩
    | resolved st₁ hst₁ ackIds hcall hok hst₁' =>
      rw [hst, Option.some.injEq] at hst₁
      subst hst₁
      subst hst₁'
      rw [resolvedAll_info, SessionState.tracks, get_resolvedAll_of_not_decodes]
      · exact ⟨hsub, htracks⟩
      rintro ⟨ackId, hmem, j', n, hdec⟩
      subst hsub
      have hnames := hc.named ackIds st hcall hst ackId hmem j' q n hdec hbefore
      exact not_hit_of_grant h.wf hcall hok hsome hends ⟨ackId, hmem, hnames⟩

theorem endsGrant_cases {tr : Transition} {j q : Nat} (h : endsGrant tr j q = true) :
    tr.input.op = .restart ∨ ∃ x ackIds seconds,
      modifyCall tr.pre.kv tr.input.op = some (x, ackIds, seconds) ∧ seconds ≤ 0 ∧
        Hit tr.pre.leases ackIds j q := by
  unfold endsGrant at h
  split at h
  · next hop => exact Or.inl hop
  · cases hcall : modifyCall tr.pre.kv tr.input.op with
    | none =>
      rw [hcall] at h
      cases h
    | some call =>
      obtain ⟨x, ackIds, seconds⟩ := call
      rw [hcall] at h
      have hnack := of_decide_eq_true h
      exact Or.inr ⟨x, ackIds, seconds, rfl, hnack.1, hnack.2⟩

theorem not_decodes_of_tracks (hwf : s.WellFormed) {st' : SessionState} {j q : Nat}
    {ackIds : List String} {seconds : Int}
    (hst' : (step s i).2.streams.sessions.get sid = some st') (htracks : st'.tracks q)
    (hop : i.op = .streamModifyAckDeadline sid j ackIds seconds) (hsec : seconds ≤ 0) :
    ¬ DecodesTo ackIds q := by
  intro hdec
  have hs := step_streams hwf i
  rw [hop] at hs
  simp only [StreamEffect, if_pos hsec] at hs
  rw [hs, get_recordResolvedAll, if_pos rfl] at hst'
  obtain ⟨st, _, rfl⟩ := Option.map_eq_some_iff.mp hst'
  exact htracks (get_resolvedAll_of_decodes (Or.inl hdec))

/-- A message that the stream tracked before stays held, or loses its lease and its row. -/
theorem Books.tracked_kept (h : Books sid trs s) (hc : KeepsBooks sid trs s i)
    {st st' : SessionState} {q : Nat} (hst : s.streams.sessions.get sid = some st)
    (hq : st.tracks q) (hst' : (step s i).2.streams.sessions.get sid = some st')
    (hq' : st'.tracks q) :
    HeldBy (trs ++ [Run.transition step s i]) sid st.info.subId q ∨
      (step s i).2.leases.get st.info.subId q = none ∧
        (step s i).2.kv.dlv.get ⟨st.info.subId, q⟩ = none := by
  have hrestart : i.op ≠ .restart := by
    intro hop
    have hs := step_streams h.wf i
    rw [hop] at hs
    have hs : (step s i).2.streams = .empty := hs
    rw [hs] at hst'
    cases hst'
  have hmove := step_slotMove h.wf hrestart st.info.subId q
  have halone := hc.alone st q hst hq
  have hbefore := h.tracked st q hst hq
  by_cases hnone : (step s i).2.leases.get st.info.subId q = none
  · right
    refine ⟨hnone, ?_⟩
    rcases hbefore with hheld | ⟨hl, hr⟩
    · have hlive : s.leases.get st.info.subId q ≠ none := by
        refine h.live _ q fun hn => ?_
        rw [HeldBy, hn] at hheld
        cases hheld
      rcases hmove.ended hlive hnone with hrow | ⟨j, ackIds, hcall, hj, hhit⟩ |
        ⟨grace, l, hop, hl, hdue⟩
      · exact hrow
      · exact absurd (halone.acked j ackIds hcall hhit) hj
      · have hlt := halone.swept grace l hop hl
        omega
    · rcases hmove.rowless hl hr hnone with hrow | ⟨j, ackIds, seconds, hcall, _, hhit⟩
      · exact hrow
      · exact absurd hhit (halone.modified j ackIds seconds hcall hl)
  · left
    rw [heldBy_append, grantAfter]
    have hpost : ¬ (Run.transition step s i).post.leases.get st.info.subId q = none := hnone
    rw [if_neg hpost]
    by_cases hleases : Leases (Run.transition step s i) st.info.subId q
    · rw [if_pos hleases]
      by_cases hop : i.op = .leaseForStream sid
      · refine ⟨⟨sid, storedBytes s.kv st.info.topicId q⟩, ?_, rfl⟩
        simp only [Run.transition, hop, grantOf, StreamRegistry.info, hst, Option.map_some]
      · exact absurd (plansLease_of_leases h.wf hleases hnone) (halone.leased hop)
    · rw [if_neg hleases]
      have hheld : HeldBy trs sid st.info.subId q := by
        refine hbefore.resolve_right fun hfree => ?_
        exact hleases (hmove.begun hfree.1 hnone)
      obtain ⟨g, hg, hgs⟩ := Option.map_eq_some_iff.mp hheld
      refine ⟨g, ?_, hgs⟩
      rw [if_neg, hg]
      intro hends
      rcases endsGrant_cases hends with hop | ⟨j, ackIds, seconds, hcall, hsec, hhit⟩
      · exact hrestart hop
      · have hcall : modifyCall s.kv i.op = some (j, ackIds, seconds) := hcall
        have hhit : Hit s.leases ackIds st.info.subId q := hhit
        have hown := halone.nacked j ackIds seconds hcall hsec hhit
        have hop : i.op = .streamModifyAckDeadline sid j ackIds seconds := by
          cases hop : i.op with
          | streamModifyAckDeadline id k ids secs =>
            rw [hop] at hcall hown
            rw [resolveCall] at hown
            split_ifs at hown
            cases hown
            cases hcall
            rfl
          | streamAcknowledge id k ids =>
            rw [hop] at hcall
            cases hcall
          | _ =>
            rw [hop] at hown
            cases hown
        obtain ⟨ackId, hmem, l, _, hdec⟩ := hhit
        exact not_decodes_of_tracks h.wf hst' hq' hop hsec ⟨ackId, hmem, _, _, hdec⟩

theorem Books.tracked_step (h : Books sid trs s) (hc : KeepsBooks sid trs s i)
    {st' : SessionState} {q : Nat} (hst' : (step s i).2.streams.sessions.get sid = some st')
    (hq' : st'.tracks q) :
    HeldBy (trs ++ [Run.transition step s i]) sid st'.info.subId q ∨
      (step s i).2.leases.get st'.info.subId q = none ∧
        (step s i).2.kv.dlv.get ⟨st'.info.subId, q⟩ = none := by
  cases sessionStep h.wf hst' with
  | opened _ hout =>
    rw [SessionState.tracks, hout] at hq'
    exact absurd rfl hq'
  | kept st hst hsub _ hout _ _ =>
    rw [hsub]
    refine h.tracked_kept hc hst ?_ hst' hq'
    rwa [SessionState.tracks, hout] at hq'
  | leased st hst ds hop hr hst₁ =>
    subst hst₁
    rw [leasedAll_info]
    rcases tracks_leasedAll.mp hq' with hq | hmem
    · exact h.tracked_kept hc hst hq hst' hq'
    · obtain ⟨d, hd, hseq⟩ := List.mem_map.mp hmem
      left
      have hleases := leases_of_delivered hop hst hr hd hseq
      have hown : NoForeignModify s i.op := by
        rw [hop]
        exact fun _ _ _ h => by cases h
      obtain ⟨e, he⟩ := (step_refines h.wf hown).slots st.info.subId q
      obtain ⟨r, hg, _⟩ := he.delivered hr hd hseq
      have hsome : ¬ (Run.transition step s i).post.leases.get st.info.subId q = none := by
        intro hn
        have hslot := slot_lease_eq_none.mpr hn
        have hlease : ((step s i).2.slot st.info.subId q).lease = some r := by
          rw [he.slot, hg]
          rfl
        rw [Run.transition, hlease] at hslot
        cases hslot
      rw [heldBy_append, grantAfter, if_neg hsome, if_pos hleases]
      refine ⟨⟨sid, storedBytes s.kv st.info.topicId q⟩, ?_, rfl⟩
      simp only [Run.transition, hop, grantOf, StreamRegistry.info, hst, Option.map_some]
  | resolved st hst ackIds _ _ hst₁ =>
    subst hst₁
    rw [resolvedAll_info]
    refine h.tracked_kept hc hst (fun hn => hq' ?_) hst' hq'
    exact get_resolvedAll_of_decodes (Or.inr hn)

theorem Books.step (h : Books sid trs s) (hc : KeepsBooks sid trs s i) :
    Books sid (trs ++ [Run.transition OpenPubusb.step s i]) (OpenPubusb.step s i).2 where
  wf := wellFormed_step h.wf i
  known j q g hg := by
    rw [grantIn_append] at hg
    exact grant_known_step h.wf (fun y hy => h.known j q y hy) hg
  live j q hg := by
    obtain ⟨g, hg⟩ := Option.ne_none_iff_exists'.mp hg
    rw [grantIn_append] at hg
    exact (grantAfter_eq_some hg).1
  held _ _ hheld := h.held_step hc hheld
  tracked _ _ hst' hq' := h.tracked_step hc hst' hq'

end Steps

/-- After a run that does nothing to the messages tracked by the stream behind its back,
closing the stream takes exactly the leases that it holds. -/
theorem close_takes_own (sid : Nat) (is : List Input)
    (hc : ∀ trs tr rest, history is = trs ++ tr :: rest → KeepsBooks sid trs tr.pre tr.input)
    (nowMs : Int) :
    ClosesOwn (history is) (Run.final step start is) sid
      (step (Run.final step start is) ⟨nowMs, .closeStream sid⟩).2 := by
  have h0 : Books sid [] start :=
    ⟨wellFormed_start, nofun, fun _ _ h => absurd rfl h, nofun, nofun⟩
  have hbooks : Books sid (history is) (Run.final step start is) :=
    Run.history_inv (C := fun trs tr => KeepsBooks sid trs tr.pre tr.input)
      (P := fun trs s => Books sid trs s) (fun _ _ _ h hc => h.step hc) h0 hc
  exact hbooks.closesOwn rfl

theorem KeepsBooks.of_quiet {sid : Nat} {trs : List Transition} {s : Engine} {i : Input}
    (hresolve : resolveCall i.op = none) (hlease : leaseCall s i.op = none)
    (hmodify : modifyCall s.kv i.op = none) (hack : ackCall s.kv i.op = none)
    (hsweep : ∀ j grace, i.op ≠ .sweepSubscription j grace) : KeepsBooks sid trs s i := by
  have hscan : ∀ a, scanArgs s i ≠ some a := by
    intro a hargs
    have hsub := scanArgs_subId hargs
    rw [hlease] at hsub
    cases hsub
  refine ⟨fun ackIds st h => ?_, fun a c _ hargs => absurd hargs (hscan a), fun st q _ _ =>
    ⟨fun _ ⟨a, c, hargs, _⟩ => hscan a hargs, fun j ackIds seconds h => ?_, fun j ackIds h => ?_,
      fun j ackIds seconds h => ?_, fun grace l h => absurd h (hsweep _ grace)⟩⟩
  · rw [hresolve] at h
    cases h
  · rw [hmodify] at h
    cases h
  · rw [hack] at h
    cases h
  · rw [hmodify] at h
    cases h

theorem close_takes_own_lease :
    HeldBy (history (leasedOnStream 0)) 1 2 1 ∧
      ClosesOwn (history (leasedOnStream 0)) (Run.final step start (leasedOnStream 0)) 1
        (step (Run.final step start (leasedOnStream 0)) ⟨5000, .closeStream 1⟩).2 := by
  have hheld : HeldBy (history (leasedOnStream 0)) 1 2 1 := by decide +kernel
  have hmeets : meetsNoRefusal (Run.final step start (setup {} ++
      [⟨0, .openStream "projects/p/subscriptions/subA" 10 0 0⟩])) ⟨0, .leaseForStream 1⟩ = true := by
    decide +kernel
  refine ⟨hheld, close_takes_own 1 (leasedOnStream 0) (fun trs tr rest h => ?_) 5000⟩
  have hsplit : leasedOnStream 0 = (setup {} ++
      [⟨0, .openStream "projects/p/subscriptions/subA" 10 0 0⟩]) ++ [⟨0, .leaseForStream 1⟩] := rfl
  rw [history, hsplit] at h
  rcases Run.trace_concat_eq_append h with ⟨_, rfl⟩ | ⟨rest', h'⟩
  · refine ⟨?_, fun a c _ hargs hc _ => noneUndeliverable_of_meets hmeets hargs hc,
      fun st q _ _ => ⟨fun hop => absurd rfl hop, ?_, ?_, ?_, ?_⟩⟩
    · intro _ _ h
      cases h
    · intro _ _ _ h
      cases h
    · intro _ _ h
      cases h
    · intro _ _ _ h
      cases h
    · intro _ _ h
      cases h
  · have hmem : tr.input ∈ setup {} ++
        [⟨0, .openStream "projects/p/subscriptions/subA" 10 0 0⟩] := by
      have htr : tr ∈ history (setup {} ++
          [⟨0, .openStream "projects/p/subscriptions/subA" 10 0 0⟩]) := by
        rw [history, h']
        exact List.mem_append_right _ List.mem_cons_self
      exact mem_inputs htr
    simp only [setup, List.mem_append, List.mem_cons, List.not_mem_nil, or_false] at hmem
    rcases hmem with (hi | hi | hi | hi) | hi
    all_goals
      rw [hi]
      exact KeepsBooks.of_quiet rfl rfl rfl rfl (by simp)

/-- The stream's lease lapses, a pull leases the message again, and closing the stream
takes the lease of the pull. -/
theorem close_takes_foreign : ¬ ∀ (sid : Nat) (is : List Input) (nowMs : Int),
    ClosesOwn (history is) (Run.final step start is) sid
      (step (Run.final step start is) ⟨nowMs, .closeStream sid⟩).2 := by
  intro h
  have hfree : ¬ HeldBy (history (leasedOnStream 0 ++ [pullA 20000])) 1 2 1 := by decide +kernel
  have hbefore : ((Run.final step start (leasedOnStream 0 ++ [pullA 20000])).leases.get 2 1).isSome =
      true := by
    decide +kernel
  have hafter : (step (Run.final step start (leasedOnStream 0 ++ [pullA 20000]))
      ⟨21000, .closeStream 1⟩).2.leases.get 2 1 = none := by
    decide +kernel
  have hkept := (h 1 (leasedOnStream 0 ++ [pullA 20000]) 21000).kept 2 1 hfree
  rw [← hkept.1, hafter] at hbefore
  cases hbefore

end OpenPubusb
