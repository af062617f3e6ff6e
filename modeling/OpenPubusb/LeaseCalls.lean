import OpenPubusb.LeaseRefusal
import OpenPubusb.System

/-! The scan that a pull or a stream's lease call makes, and what the call has done by
its end. -/

namespace OpenPubusb

open Hoare

variable {s t : Engine} {i : Input} {subId seq : Nat}

/-- The scan that a lease call makes, unless it is refused before. -/
def scanArgs (s : Engine) (i : Input) : Option LeaseArgs :=
  match i.op with
  | .pull name maxMessages =>
    match SubscriptionStore.get s.kv name with
    | .ok r =>
      if (r.detached ∨ r.topic = deletedTopic) ∨ 1000 < maxMessages then none
      else some (leaseArgs s r.id r.topicId maxMessages i.nowMs r.ackDeadlineSecs)
    | .error _ => none
  | .leaseForStream sid =>
    match s.streams.sessions.get sid with
    | some st =>
      if (StreamRegistry.sessionBudget st).2 ≤ 0 then none
      else some (leaseArgs s st.info.subId st.info.topicId
        (min (StreamRegistry.sessionBudget st).1 i32Max) i.nowMs st.info.ackDeadlineSecs)
    | none => none
  | _ => none

/-- The scan of the lease call reaches a message that is due for a dead-letter topic which
cannot take it, so that the call fails halfway. -/
def Refused (s : Engine) (i : Input) (subId : Nat) : Prop :=
  ∃ a c, scanArgs s i = some a ∧ a.subId = subId ∧ s.kv.cursors.get subId = some c ∧
    ¬ NoneUndeliverable a s c

theorem scanArgs_pull {name : String} {maxMessages : Int} {r : SubscriptionRecord}
    (hop : i.op = .pull name maxMessages) (hget : SubscriptionStore.get s.kv name = .ok r)
    (hlive : ¬ (r.detached ∨ r.topic = deletedTopic))
    (hvalid : validatePullMaxMessages (max maxMessages 1) = .ok ()) :
    scanArgs s i = some (leaseArgs s r.id r.topicId maxMessages i.nowMs r.ackDeadlineSecs) := by
  have hmax : max maxMessages 1 ≤ 1000 := (validateRange_eq_ok.mp hvalid).2
  have hle := le_max_left maxMessages 1
  simp only [scanArgs, hop, hget]
  rw [if_neg (not_or.mpr ⟨hlive, by omega⟩)]

theorem scanArgs_leaseForStream {sid : Nat} {st : SessionState} (hop : i.op = .leaseForStream sid)
    (hst : s.streams.sessions.get sid = some st) (hleft : ¬ (StreamRegistry.sessionBudget st).2 ≤ 0) :
    scanArgs s i = some (leaseArgs s st.info.subId st.info.topicId
      (min (StreamRegistry.sessionBudget st).1 i32Max) i.nowMs st.info.ackDeadlineSecs) := by
  simp only [scanArgs, hop, hst]
  rw [if_neg hleft]

/-- The scan of the lease call meets no message that its dead-letter topic cannot take. -/
def meetsNoRefusal (s : Engine) (i : Input) : Bool :=
  match scanArgs s i with
  | some a =>
    (s.kv.cursors.get a.subId).all fun c => (planned a s c).all fun v =>
      match v.verdict with
      | .refuse _ => false
      | _ => true
  | none => true

theorem noneUndeliverable_of_meets (h : meetsNoRefusal s i = true)
    {a : LeaseArgs} {c : CursorRecord} (hargs : scanArgs s i = some a)
    (hc : s.kv.cursors.get a.subId = some c) : NoneUndeliverable a s c := by
  unfold meetsNoRefusal at h
  simp only [hargs, hc, Option.all_some, List.all_eq_true] at h
  refine noneUndeliverable_iff.mpr fun v hv e he => ?_
  have hv := h v hv
  rw [he] at hv
  cases hv

theorem leaseCall_cases {op : Op} (h : leaseCall s op ≠ none) :
    (∃ name n, op = .pull name n) ∨ ∃ sid, op = .leaseForStream sid := by
  cases op with
  | pull name n => exact Or.inl ⟨name, n, rfl⟩
  | leaseForStream sid => exact Or.inr ⟨sid, rfl⟩
  | _ => exact absurd rfl h

theorem leaseForStream_eq {sid : Nat} {st : SessionState}
    (hst : s.streams.sessions.get sid = some st) (nowMs : Int) :
    leaseForStream sid nowMs s =
      if (StreamRegistry.sessionBudget st).1 ≤ 0 ∨ (StreamRegistry.sessionBudget st).2 ≤ 0 then
        .ok [] s
      else match leaseNext st.info.subId st.info.topicId
          (min (StreamRegistry.sessionBudget st).1 i32Max) nowMs st.info.ackDeadlineSecs s with
        | .ok ds t => .ok ds { t with streams := recordLeasedAll t.streams sid ds }
        | .error e t => .error e t := by
  have hinfo : s.streams.info sid = some st.info := by rw [StreamRegistry.info, hst]; rfl
  have hbudget : s.streams.remainingBudget sid = StreamRegistry.sessionBudget st := by
    rw [StreamRegistry.remainingBudget, hst]
  apply Ensures.run_eq
  simp only [leaseForStream, ensures_bind, ensures_get, hinfo, hbudget]
  split_ifs with hleft
  · rfl
  · simp only [ensures_bind, ensures_modify, ensures_pure]
    unfold Ensures
    cases leaseNext st.info.subId st.info.topicId (min (StreamRegistry.sessionBudget st).1 i32Max)
      nowMs st.info.ackDeadlineSecs s <;> rfl

theorem scanArgs_subId {a : LeaseArgs} (h : scanArgs s i = some a) :
    (leaseCall s i.op).map Prod.fst = some a.subId := by
  unfold scanArgs at h
  split at h
  · next name n hop =>
    split at h
    · next r hr =>
      split_ifs at h
      cases h
      simp only [hop, leaseCall, hr, Option.map_some]
      rfl
    · cases h
  · next sid hop =>
    split at h
    · next st hst =>
      split_ifs at h
      cases h
      simp only [hop, leaseCall, StreamRegistry.info, hst, Option.map_some]
      rfl
    · cases h
  · cases h

/-- What a lease call has done: nothing, or the scan. -/
def ScanMade (s : Engine) (i : Input) (reply : Reply) (t : Engine) : Prop :=
  (t.leases = s.leases ∧ ∀ j ds, reply = .delivered j ds → ds = []) ∨
    ∃ a c, scanArgs s i = some a ∧ s.kv.cursors.get a.subId = some c ∧
      ((∃ out u, LeaseExact a (s.cacheFilter a.subId) c out u ∧ reply = .delivered a.subId out ∧
          t.leases = u.leases) ∨
        ∃ e u, LeaseBroke a (s.cacheFilter a.subId) c e u ∧ reply = .failed e ∧
          t.leases = u.leases)

theorem ensures_leaseNext_made (subId topicId : Nat) (maxMessages nowMs secs : Int) :
    Ensures (leaseNext subId topicId maxMessages nowMs secs) s
      (fun out t => out = [] ∧ t = s ∨ ∃ c, s.kv.cursors.get subId = some c ∧
        LeaseExact (leaseArgs s subId topicId maxMessages nowMs secs) (s.cacheFilter subId) c out t)
      (fun e t => t = s ∨ ∃ c, s.kv.cursors.get subId = some c ∧
        LeaseBroke (leaseArgs s subId topicId maxMessages nowMs secs) (s.cacheFilter subId) c e
          t) := by
  by_cases hmax : maxMessages ≤ 0
  · unfold leaseNext
    rw [if_pos hmax]
    exact Or.inl ⟨rfl, rfl⟩
  have hpos : 0 < maxMessages := by omega
  cases hc : s.kv.cursors.get subId with
  | none =>
    obtain ⟨e, he⟩ := leaseNext_no_cursor topicId nowMs secs hpos hc
    unfold Ensures
    rw [he]
    exact Or.inl rfl
  | some c =>
    exact (ensures_leaseNext_exact topicId nowMs secs hpos hc).mono
      (fun out t h => Or.inr ⟨c, rfl, h⟩) (fun e t h => Or.inr ⟨c, rfl, h⟩)

theorem perform_scan : Ensures (perform i.nowMs i.op) s
    (fun r t => leaseCall s i.op ≠ none → ScanMade s i r t)
    (fun e t => leaseCall s i.op ≠ none → ScanMade s i (.failed e) t) := by
  by_cases hcall : leaseCall s i.op = none
  · unfold Ensures
    cases perform i.nowMs i.op s with
    | ok r t => exact fun h => absurd hcall h
    | error e t => exact fun h => absurd hcall h
  rcases leaseCall_cases hcall with ⟨name, n, hop⟩ | ⟨sid, hop⟩
  · rw [hop]
    simp only [perform, PubSubService.pullDelivered, PubSubService.attached, ensures_bind,
      ensures_pure, ensures_get, ensures_liftResult, ensures_ite, ensures_throw]
    refine ⟨fun _ hvalid => ⟨fun sub hsub => ⟨fun _ _ => ?_, fun hlive => ?_⟩, fun _ _ _ => ?_⟩,
      fun _ _ _ => ?_⟩
    · exact Or.inl ⟨rfl, fun _ _ h => by cases h⟩
    · have hargs := scanArgs_pull hop hsub hlive hvalid
      refine (ensures_leaseNext_made sub.id sub.topicId n i.nowMs sub.ackDeadlineSecs).mono
        (fun ds u hu => ?_) (fun e u hu _ => ?_)
      · have hmade : ∀ kv', ScanMade s i (.delivered sub.id ds) { u with kv := kv' } := by
          intro kv'
          rcases hu with ⟨rfl, rfl⟩ | ⟨c, hc, hexact⟩
          · exact Or.inl ⟨rfl, fun j ds h => by cases h; rfl⟩
          · exact Or.inr ⟨_, c, hargs, hc, Or.inl ⟨ds, u, hexact, rfl, rfl⟩⟩
        simp only [PubSubService.touch, ensures_ignore, ensures_onKv]
        exact (keeps_touch sub.id i.nowMs u.kv).mono (fun _ kv' _ _ => hmade kv')
          (fun _ kv' _ _ => hmade kv')
      · rcases hu with rfl | ⟨c, hc, hbroke⟩
        · exact Or.inl ⟨rfl, fun _ _ h => by cases h⟩
        · exact Or.inr ⟨_, c, hargs, hc, Or.inr ⟨e, u, hbroke, rfl, rfl⟩⟩
    · exact Or.inl ⟨rfl, fun _ _ h => by cases h⟩
    · exact Or.inl ⟨rfl, fun _ _ h => by cases h⟩
  · rw [hop]
    simp only [perform, ensures_bind, ensures_pure, ensures_get]
    cases hst : s.streams.sessions.get sid with
    | none =>
      have hinfo : s.streams.info sid = none := by rw [StreamRegistry.info, hst]; rfl
      simp only [leaseForStream, ensures_bind, ensures_get, hinfo, ensures_throw]
      exact fun _ => Or.inl ⟨rfl, fun _ _ h => by cases h⟩
    | some st =>
      have hsub : streamSub s sid = st.info.subId := by
        rw [streamSub, StreamRegistry.info, hst]
        rfl
      unfold Ensures
      rw [leaseForStream_eq hst, hsub]
      split_ifs with hleft
      · exact fun _ => Or.inl ⟨rfl, fun j ds h => by cases h; rfl⟩
      · have hargs := scanArgs_leaseForStream hop hst (not_or.mp hleft).2
        have hmade := @ensures_leaseNext_made s st.info.subId st.info.topicId
          (min (StreamRegistry.sessionBudget st).1 i32Max) i.nowMs st.info.ackDeadlineSecs
        cases hr : leaseNext st.info.subId st.info.topicId
          (min (StreamRegistry.sessionBudget st).1 i32Max) i.nowMs st.info.ackDeadlineSecs s with
        | ok ds u =>
          rcases hmade.of_ok hr with ⟨rfl, rfl⟩ | ⟨c, hc, hexact⟩
          · exact fun _ => Or.inl ⟨rfl, fun j ds h => by cases h; rfl⟩
          · exact fun _ => Or.inr ⟨_, c, hargs, hc, Or.inl ⟨ds, u, hexact, rfl, rfl⟩⟩
        | error e u =>
          rcases hmade.of_error hr with rfl | ⟨c, hc, hbroke⟩
          · exact fun _ => Or.inl ⟨rfl, fun _ _ h => by cases h⟩
          · exact fun _ => Or.inr ⟨_, c, hargs, hc, Or.inr ⟨e, u, hbroke, rfl, rfl⟩⟩

theorem step_scan (hcall : leaseCall s i.op ≠ none) : ScanMade s i (step s i).1 (step s i).2 := by
  have h := @perform_scan s i
  unfold step
  cases hp : perform i.nowMs i.op s with
  | ok r t => exact h.of_ok hp hcall
  | error e t => exact h.of_error hp hcall

end OpenPubusb
