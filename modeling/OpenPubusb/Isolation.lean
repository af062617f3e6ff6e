import OpenPubusb.RefineOps

/-! Acknowledgements and deadline changes sent to one subscription leave every
other subscription alone, as long as their ids name none of its leases. -/

namespace OpenPubusb

open Hoare

/-- The subscription an acknowledgement or a deadline change is sent to, with
its ids. -/
def addressee (kv : Kv) (op : Op) : Option (Nat × List String) :=
  match modifyCall kv op with
  | some (subId, ackIds, _) => some (subId, ackIds)
  | none => ackCall kv op

/-- Only `subId` changed, and it only where an id names its current lease. -/
structure Isolated (subId : Nat) (ackIds : List String) (s t : Engine) : Prop where
  leases : ∀ a q, a ≠ subId → t.leases.get a q = s.leases.get a q
  dlv : ∀ a q, a ≠ subId → t.kv.dlv.get ⟨a, q⟩ = s.kv.dlv.get ⟨a, q⟩
  cursors : ∀ a ≠ subId, t.kv.cursors.get a = s.kv.cursors.get a
  own : ∀ q, ¬ Hit s.leases ackIds subId q →
    t.leases.get subId q = s.leases.get subId q ∧
    t.kv.dlv.get ⟨subId, q⟩ = s.kv.dlv.get ⟨subId, q⟩ ∧
    (t.kv.cursors.get subId).map (·.isDone q) = (s.kv.cursors.get subId).map (·.isDone q)

/-- No listed id names the lease of a subscription other than `subId`. -/
def NoForeign (t : LeaseTable) (subId : Nat) (ackIds : List String) : Prop :=
  ∀ a q, a ≠ subId → ¬ Hit t ackIds a q

variable {s t u : Engine} {subId : Nat} {ackIds : List String}

theorem Isolated.refl (subId : Nat) (ackIds : List String) (s : Engine) :
    Isolated subId ackIds s s :=
  ⟨fun _ _ _ => rfl, fun _ _ _ => rfl, fun _ _ => rfl, fun _ _ => ⟨rfl, rfl, rfl⟩⟩

theorem Isolated.of_eq (h : Isolated subId ackIds s t) (hl : u.leases = t.leases)
    (hd : u.kv.dlv = t.kv.dlv) (hc : u.kv.cursors = t.kv.cursors) : Isolated subId ackIds s u := by
  refine ⟨?_, ?_, ?_, ?_⟩
  · rw [hl]
    exact h.leases
  · rw [hd]
    exact h.dlv
  · rw [hc]
    exact h.cursors
  · rw [hl, hd, hc]
    exact h.own

theorem Acknowledged.isolated (h : Acknowledged subId ackIds s t)
    (hown : NoForeign s.leases subId ackIds) : Isolated subId ackIds s t := by
  have hany : ∀ q, ¬ Hit s.leases ackIds subId q → ¬ ∃ j, Hit s.leases ackIds j q := by
    rintro q hq ⟨j, hj⟩
    by_cases hs : j = subId
    · exact hq (hs ▸ hj)
    · exact hown j q hs hj
  refine ⟨fun a q ha => (h.leases a q).2 (hown a q ha), h.dlv, h.cursors, fun q hq => ?_⟩
  refine ⟨(h.leases subId q).2 hq, (h.row q).2 (hany q hq), ?_⟩
  cases hc : s.kv.cursors.get subId with
  | none =>
    have hn := h.cursor
    rw [hc] at hn
    rw [Option.isNone_iff_eq_none.mp (Option.isSome_eq_false_iff.mp hn)]
  | some c =>
    obtain ⟨c', hc', hd, _⟩ := h.done hc
    have hdone : c'.isDone q = c.isDone q := by
      rw [Bool.eq_iff_iff, hd q]
      exact or_iff_left (hany q hq)
    rw [hc', Option.map_some, Option.map_some, hdone]

theorem Acknowledged.noForeign (h : Acknowledged subId ackIds s t)
    (hi : Isolated subId ackIds s t) : NoForeign s.leases subId ackIds := by
  intro a q ha hhit
  have hgone := (h.leases a q).1 hhit
  rw [hi.leases a q ha] at hgone
  obtain ⟨_, _, l, hl, _⟩ := hhit
  rw [hl] at hgone
  cases hgone

theorem Rescheduled.isolated {d : Int} (h : Rescheduled subId ackIds d s t) :
    Isolated subId ackIds s t := by
  obtain ⟨dlv, w, hkv⟩ := h.rest
  have hcur : t.kv.cursors = s.kv.cursors := by rw [hkv]
  refine ⟨fun a q ha => (h.leases a q).2 fun hk => ha hk.1,
    fun a q ha => (h.dlv a q).2 fun hk => ha hk.1, fun a _ => by rw [hcur], fun q hq => ?_⟩
  exact ⟨(h.leases subId q).2 fun hk => hq hk.2, (h.dlv subId q).2 fun hk => hq hk.2, by rw [hcur]⟩

/-- Touching the record after the call changes nothing that isolation is about. -/
theorem ensures_touch_isolated {P : Engine → Prop} (hwf : t.WellFormed) (nowMs : Int)
    (hp : ∀ u, u.leases = t.leases → u.kv.dlv = t.kv.dlv → u.kv.cursors = t.kv.cursors → P u)
    (E : Error → Engine → Prop) :
    Ensures (PubSubService.touch subId nowMs) t (fun _ u => P u) E := by
  simp only [PubSubService.touch, ensures_ignore, ensures_onKv]
  exact (keeps_touch subId nowMs t.kv).mono
    (fun _ _ hr => hp _ rfl (hr hwf.kv).dlv (hr hwf.kv).cursors)
    (fun _ _ hr => hp _ rfl (hr hwf.kv).dlv (hr hwf.kv).cursors)

/-- An acknowledgement keeps to its subscription exactly when its ids do. -/
def AckKept (subId : Nat) (ackIds : List String) (s t : Engine) : Prop :=
  (NoForeign s.leases subId ackIds → Isolated subId ackIds s t) ∧
  (s.kv.cursors.get subId ≠ none → Isolated subId ackIds s t → NoForeign s.leases subId ackIds)

theorem AckKept.of_eq (h : AckKept subId ackIds s t) (hl : u.leases = t.leases)
    (hd : u.kv.dlv = t.kv.dlv) (hc : u.kv.cursors = t.kv.cursors) : AckKept subId ackIds s u :=
  ⟨fun hn => (h.1 hn).of_eq hl hd hc,
    fun hcur hi => h.2 hcur (hi.of_eq hl.symm hd.symm hc.symm)⟩

theorem ensures_ackKept (hwf : s.WellFormed) (subId : Nat) (ackIds : List String) :
    Ensures (acknowledge subId ackIds) s (fun _ t => t.WellFormed ∧ AckKept subId ackIds s t)
      (fun _ t => AckKept subId ackIds s t) := by
  refine (ensures_acknowledge ackIds hwf.healthy hwf.coherent).mono (fun _ t h => ?_)
    (fun _ t h => ?_)
  · exact ⟨h.wellFormed hwf, h.isolated, fun _ => h.noForeign⟩
  · rw [h.1]
    exact ⟨fun _ => Isolated.refl .., fun hc => absurd h.2 hc⟩

theorem perform_ackKept (hwf : s.WellFormed) {now : Int} {op : Op}
    (hcall : ackCall s.kv op = some (subId, ackIds)) :
    Ensures (perform now op) s (fun _ t => AckKept subId ackIds s t)
      (fun _ t => AckKept subId ackIds s t) := by
  cases op with
  | acknowledge name ids =>
    simp only [perform, PubSubService.acknowledge, ensures_bind, ensures_pure, ensures_get,
      ensures_liftResult]
    refine ⟨fun sub hsub => ?_, fun e he => ?_⟩
    · rw [ackCall, subscriptionId, hsub, Option.map_some, Option.some.injEq, Prod.mk.injEq] at hcall
      obtain ⟨rfl, rfl⟩ := hcall
      exact (ensures_ackKept hwf sub.id ids).mono
        (fun _ t h => ensures_touch_isolated h.1 now (fun u => h.2.of_eq) _) (fun _ _ h => h)
    · rw [ackCall, subscriptionId, he] at hcall
      cases hcall
  | streamAcknowledge streamId id ids =>
    cases hcall
    simp only [perform, PubSubService.streamAcknowledge, streamAcknowledge, ensures_bind,
      ensures_pure, ensures_modify]
    refine (ensures_ackKept hwf subId ackIds).mono (fun _ t h => ?_) (fun _ _ h => h)
    obtain ⟨hwf', hk⟩ := h
    have hst := (sameStreams_recordResolvedAll t.streams streamId ackIds)
    exact ensures_touch_isolated (hwf'.sameStreams hst) now (fun u => hk.of_eq) _
  | _ => cases hcall

/-- What holds after the loop of a deadline change holds after the call, when it is
about the leases, the rows and the cursors. -/
theorem ensures_perform_modify (hwf : s.WellFormed) {now seconds : Int} {op : Op}
    (hcall : modifyCall s.kv op = some (subId, ackIds, seconds)) {P : Engine → Prop}
    (hloop : ∀ E, Ensures (modifyAckDeadline subId ackIds now seconds) s (fun _ t => P t) E)
    (hp : ∀ t u, P t → u.leases = t.leases → u.kv.dlv = t.kv.dlv →
      u.kv.cursors = t.kv.cursors → P u) :
    Ensures (perform now op) s (fun _ t => P t) (fun _ t => P t) := by
  have key : ∀ E, Ensures (modifyAckDeadline subId ackIds now seconds) s
      (fun _ t => t.WellFormed ∧ P t) E := fun E =>
    ((ensures_modify_wellFormed ackIds now seconds hwf E).and (hloop E)).mono
      (fun _ _ h => ⟨h.1.1, h.2⟩) (fun _ _ h => h.1)
  cases op with
  | modifyAckDeadline name ids secs =>
    simp only [perform, PubSubService.modifyAckDeadline, ensures_bind, ensures_pure, ensures_get,
      ensures_liftResult]
    refine ⟨fun sub hsub => ?_, fun e he => ?_⟩
    · rw [modifyCall, subscriptionId, hsub, Option.map_some, Option.some.injEq, Prod.mk.injEq,
        Prod.mk.injEq] at hcall
      obtain ⟨rfl, rfl, rfl⟩ := hcall
      exact (key _).mono (fun _ t h => ensures_touch_isolated h.1 now (fun u => hp t u h.2) _)
        (fun _ _ h => h)
    · rw [modifyCall, subscriptionId, he] at hcall
      cases hcall
  | streamModifyAckDeadline streamId id ids secs =>
    cases hcall
    simp only [perform, PubSubService.streamModifyAckDeadline, streamModifyAckDeadline,
      ensures_bind, ensures_pure, ensures_ite, ensures_modify]
    refine (key _).mono (fun _ t h => ⟨fun _ => ?_, fun _ => ?_⟩) (fun _ _ h => h)
    · have hst := (sameStreams_recordResolvedAll t.streams streamId ackIds)
      exact ensures_touch_isolated (h.1.sameStreams hst) now (fun u => hp t u h.2) _
    · exact ensures_touch_isolated h.1 now (fun u => hp t u h.2) _
  | _ => cases hcall

theorem perform_modify_isolated (hwf : s.WellFormed) {now seconds : Int} {op : Op}
    (hcall : modifyCall s.kv op = some (subId, ackIds, seconds))
    (hown : NoForeign s.leases subId ackIds) :
    Ensures (perform now op) s (fun _ t => Isolated subId ackIds s t)
      (fun _ t => Isolated subId ackIds s t) := by
  have hids : ∀ x ∈ ackIds, ∀ i q, s.leases.Names x i q → i = subId := by
    intro x hx i q hn
    by_contra hi
    exact hown i q hi ⟨x, hx, hn⟩
  refine ensures_perform_modify hwf hcall (fun E => ?_) fun t u h => h.of_eq
  exact (ensures_modifyAckDeadline ackIds now seconds hwf.healthy hwf.coherent hids E).mono
    (fun _ _ h => h.isolated) (fun _ _ h => h)

/-- In every reachable state, a call whose ids name no lease of another
subscription touches no other subscription, and its own one only where an id
names its current lease; an acknowledgement with an id that does name such a
lease breaks this. -/
theorem acks_isolated (is : List Input) :
    ∀ tr ∈ history is, ∀ subId ackIds,
      addressee tr.pre.kv tr.input.op = some (subId, ackIds) →
      (NoForeign tr.pre.leases subId ackIds → Isolated subId ackIds tr.pre tr.post) ∧
      (ackCall tr.pre.kv tr.input.op = some (subId, ackIds) →
        tr.pre.kv.cursors.get subId ≠ none → Isolated subId ackIds tr.pre tr.post →
        NoForeign tr.pre.leases subId ackIds) := by
  intro tr htr subId ackIds hcall
  have hwf := wellFormed_pre htr
  rw [Run.post_eq_of_mem htr]
  refine ⟨fun hown => ?_, fun ha => (ensures_step (perform_ackKept hwf ha)).2⟩
  cases hm : modifyCall tr.pre.kv tr.input.op with
  | some m =>
    obtain ⟨i, ids, seconds⟩ := m
    rw [addressee, hm, Option.some.injEq, Prod.mk.injEq] at hcall
    obtain ⟨rfl, rfl⟩ := hcall
    exact ensures_step (perform_modify_isolated hwf hm hown)
  | none =>
    rw [addressee, hm] at hcall
    exact (ensures_step (perform_ackKept hwf hcall)).1 hown

/-- The message is leased to `subA`, so `encodeAckId 2 1 1` names its lease. -/
def leasedToA : List Input := setup {} ++ [pullA 1000]

def ackTo (name : String) : Input := ⟨2000, .acknowledge name [encodeAckId 2 1 1]⟩

theorem ackTo_subA_isolated :
    let s := Run.final step start leasedToA
    let i := ackTo "projects/p/subscriptions/subA"
    Isolated 2 [encodeAckId 2 1 1] s (step s i).2 := by
  intro s i
  have hd : decodeAckId (encodeAckId 2 1 1) = some (2, 1, 1) := by decide +kernel
  refine (acks_isolated (leasedToA ++ [i]) _ (Run.mem_trace_append start leasedToA i) 2
    [encodeAckId 2 1 1] (by decide +kernel)).1 ?_
  rintro a q ha ⟨x, hx, l, _, hx'⟩
  rw [List.mem_singleton.mp hx, hd, Option.some.injEq, Prod.mk.injEq] at hx'
  exact ha hx'.1.symm

/-- The same id sent to `subB` takes the lease away from `subA`. -/
theorem ackTo_subB_not_isolated :
    let s := Run.final step start leasedToA
    let i := ackTo "projects/p/subscriptions/subB"
    (s.kv.subs.get 2).isSome = true ∧ (s.kv.subs.get 3).isSome = true ∧
    addressee s.kv i.op = some (3, [encodeAckId 2 1 1]) ∧
    ¬ Isolated 3 [encodeAckId 2 1 1] s (step s i).2 := by
  intro s i
  have hrun : (s.kv.subs.get 2).isSome = true ∧ (s.kv.subs.get 3).isSome = true ∧
      addressee s.kv i.op = some (3, [encodeAckId 2 1 1]) ∧
      (s.leases.get 2 1).isSome = true ∧ ((step s i).2.leases.get 2 1).isSome = false := by
    decide +kernel
  obtain ⟨hA, hB, hcall, hbefore, hafter⟩ := hrun
  refine ⟨hA, hB, hcall, fun h => ?_⟩
  rw [h.leases 2 1 (by decide), hbefore] at hafter
  cases hafter

end OpenPubusb
