import OpenPubusb.RefineOps

/-! What each operation does to the stream registry. -/

namespace OpenPubusb

open Hoare

variable {s t : Engine} {i : Input}

def StreamEffect (s : Engine) (op : Op) (reply : Reply) (t : Engine) : Prop :=
  match op with
  | .openStream _ secs _ _ => t.streams = s.streams ∨
      ∃ info, info.ackDeadlineSecs = secs ∧ t.streams = s.streams.openStream info
  | .updateStream sid secs messages bytes => t.streams = s.streams.update sid secs messages bytes
  | .leaseForStream sid =>
    (∃ ds, reply = .delivered (streamSub s sid) ds ∧ t.streams = recordLeasedAll s.streams sid ds) ∨
      (∃ e, reply = .failed e) ∧ t.streams = s.streams
  | .streamAcknowledge sid _ ackIds =>
    reply = .done ∧ t.streams = recordResolvedAll s.streams sid ackIds ∨
      (∃ e, reply = .failed e) ∧ t.streams = s.streams
  | .streamModifyAckDeadline sid _ ackIds seconds =>
    t.streams = if seconds ≤ 0 then recordResolvedAll s.streams sid ackIds else s.streams
  | .closeStream sid => t.streams = (s.streams.close sid).1
  | .restart => t.streams = .empty
  | _ => t.streams = s.streams

theorem ensures_onKv_streams {α : Type} (m : KvM α) (s : Engine) :
    Ensures (onKv m) s (fun _ t => t.streams = s.streams) (fun _ t => t.streams = s.streams) := by
  rw [ensures_onKv]
  unfold Ensures
  cases m s.kv <;> rfl

theorem ensures_touch_streams (subId : Nat) (nowMs : Int) (E : Error → Engine → Prop) :
    Ensures (PubSubService.touch subId nowMs) t (fun _ u => u.streams = t.streams) E := by
  rw [PubSubService.touch, ensures_ignore]
  exact ensures_onKv_streams _ t

theorem ensures_leaseNext_streams (hwf : s.WellFormed) {subId topicId : Nat}
    (ht : ∀ r, s.kv.subs.get subId = some r → r.topicId = topicId)
    (maxMessages nowMs ackDeadlineSecs : Int) :
    Ensures (leaseNext subId topicId maxMessages nowMs ackDeadlineSecs) s
      (fun _ t => t.streams = s.streams) (fun _ t => t.streams = s.streams) :=
  (ensures_leaseNext hwf ht ..).mono (fun _ _ h => h.streams) (fun _ _ h => h.streams)

theorem ensures_acknowledge_streams (hwf : s.WellFormed) (subId : Nat) (ackIds : List String) :
    Ensures (acknowledge subId ackIds) s (fun _ t => t.streams = s.streams)
      (fun _ t => t.streams = s.streams) :=
  (ensures_acknowledge ackIds hwf.healthy hwf.coherent).mono (fun _ _ h => h.streams)
    (fun _ _ h => by rw [h.1])

theorem perform_pull_streams (hwf : s.WellFormed) (now : Int) (name : String) (n : Int) :
    Ensures (perform now (.pull name n)) s (fun _ t => t.streams = s.streams)
      (fun _ t => t.streams = s.streams) := by
  simp only [perform, PubSubService.pullDelivered, PubSubService.attached, ensures_bind,
    ensures_pure, ensures_get, ensures_liftResult, ensures_ite, ensures_throw]
  refine ⟨fun _ _ => ⟨fun sub hsub => ⟨fun _ => trivial, fun _ => ?_⟩, fun _ _ => trivial⟩,
    fun _ _ => trivial⟩
  refine (ensures_leaseNext_streams hwf (fun r hr => ?_) ..).mono (fun _ t h => ?_) (fun _ _ h => h)
  · rw [hwf.get_ok hsub] at hr
    cases hr
    rfl
  · exact (ensures_touch_streams ..).mono (fun _ _ hu => hu.trans h) (fun _ _ h => h)

theorem perform_leaseForStream_streams (hwf : s.WellFormed) (now : Int) (sid : Nat) :
    Ensures (perform now (.leaseForStream sid)) s
      (fun r t => StreamEffect s (.leaseForStream sid) r t)
      (fun e t => StreamEffect s (.leaseForStream sid) (.failed e) t) := by
  simp only [perform, leaseForStream, ensures_bind, ensures_pure, ensures_get]
  cases hinfo : s.streams.info sid with
  | none => exact Or.inr ⟨⟨_, rfl⟩, rfl⟩
  | some info =>
    obtain ⟨st, hst, rfl⟩ := Option.map_eq_some_iff.mp hinfo
    simp only [ensures_ite, ensures_pure, ensures_bind, ensures_modify]
    refine ⟨fun _ => Or.inl ⟨[], rfl, rfl⟩, fun _ => ?_⟩
    refine (ensures_leaseNext_streams hwf (hwf.session hst).2.2 ..).mono (fun ds t h => ?_)
      (fun e t h => Or.inr ⟨⟨e, rfl⟩, h⟩)
    exact Or.inl ⟨ds, rfl, by rw [h]⟩

theorem perform_closeStream_streams (hwf : s.WellFormed) (now : Int) (sid : Nat) :
    Ensures (perform now (.closeStream sid)) s
      (fun _ t => t.streams = (s.streams.close sid).1)
      (fun _ t => t.streams = (s.streams.close sid).1) := by
  simp only [perform, onStreamClosed, setStreams, ensures_bind, ensures_pure, ensures_get,
    ensures_modify]
  cases (s.streams.close sid).2 with
  | none => trivial
  | some p =>
    exact (ensures_releaseAll (s := { s with streams := (s.streams.close sid).1 }) p.2
      hwf.healthy _).mono (fun _ _ h => h.streams) (fun _ _ h => h)

theorem perform_seek_streams (hwf : s.WellFormed) (subId : Nat) (c : CursorRecord)
    (E : Error → Engine → Prop) :
    Ensures (restoreCursor subId c) s (fun _ t => t.streams = s.streams) E :=
  (ensures_restoreCursor c hwf.healthy E).mono (fun _ _ h => h.streams) (fun _ _ h => h)

theorem perform_streams (hwf : s.WellFormed) (now : Int) (op : Op) :
    Ensures (perform now op) s (fun r t => StreamEffect s op r t)
      (fun e t => StreamEffect s op (.failed e) t) := by
  have store : ∀ {α : Type} {m : KvM α} {f : α → Reply},
      Ensures (do let a ← onKv m; pure (f a)) s (fun _ t => t.streams = s.streams)
        (fun _ t => t.streams = s.streams) := by
    intro α m f
    simp only [ensures_bind, ensures_pure]
    exact ensures_onKv_streams m s
  cases op with
  | pull name n => exact perform_pull_streams hwf now name n
  | acknowledge name ackIds =>
    simp only [perform, PubSubService.acknowledge, ensures_bind, ensures_pure, ensures_get,
      ensures_liftResult]
    refine ⟨fun sub _ => ?_, fun _ _ => rfl⟩
    refine (ensures_acknowledge_streams hwf sub.id ackIds).mono (fun _ t h => ?_) (fun _ _ h => h)
    exact (ensures_touch_streams ..).mono (fun _ _ hu => hu.trans h) (fun _ _ h => h)
  | modifyAckDeadline name ackIds seconds =>
    simp only [perform, PubSubService.modifyAckDeadline, ensures_bind, ensures_pure, ensures_get,
      ensures_liftResult]
    refine ⟨fun sub _ => ?_, fun _ _ => rfl⟩
    refine (ensures_modify_wellFormed ackIds now seconds hwf _).mono (fun _ t h => ?_)
      (fun _ _ h => h)
    exact (ensures_touch_streams ..).mono (fun _ _ hu => hu.trans h.2) (fun _ _ h => h)
  | sweepSubscription => exact rfl
  | sweepRetention =>
    simp only [perform, PubSubService.sweepRetention, ensures_bind, ensures_pure, ensures_ignore]
    refine (ensures_onKv_streams _ s).mono (fun _ t h => ?_) (fun _ _ h => h)
    exact (ensures_onKv_streams _ t).mono (fun _ _ hu => hu.trans h) (fun _ _ hu => hu.trans h)
  | openStream name secs messages bytes =>
    simp only [perform, PubSubService.openStream, PubSubService.attached, openStream, setStreams,
      ensures_bind, ensures_pure, ensures_get, ensures_liftResult, ensures_ite, ensures_throw,
      ensures_modify]
    exact ⟨fun _ _ => ⟨fun _ => Or.inl rfl, fun _ => Or.inr ⟨_, rfl, rfl⟩⟩, fun _ _ => Or.inl rfl⟩
  | updateStream => exact rfl
  | leaseForStream sid => exact perform_leaseForStream_streams hwf now sid
  | streamAcknowledge sid subId ackIds =>
    simp only [perform, PubSubService.streamAcknowledge, streamAcknowledge, ensures_bind,
      ensures_pure, ensures_modify]
    refine (ensures_acknowledge_streams hwf subId ackIds).mono (fun _ t h => ?_)
      (fun e _ h => Or.inr ⟨⟨e, rfl⟩, h⟩)
    refine (ensures_touch_streams ..).mono (fun _ u hu => Or.inl ⟨rfl, hu.trans ?_⟩) (fun _ _ h => h)
    exact congrArg (fun r => recordResolvedAll r sid ackIds) h
  | streamModifyAckDeadline sid subId ackIds seconds =>
    simp only [perform, PubSubService.streamModifyAckDeadline, streamModifyAckDeadline,
      ensures_bind, ensures_pure, ensures_ite, ensures_modify, StreamEffect]
    refine (ensures_modify_wellFormed ackIds now seconds hwf _).mono
      (fun _ t h => ⟨fun hs => ?_, fun hs => ?_⟩) (fun _ _ h => h)
    · refine (ensures_touch_streams ..).mono (fun _ u hu => ?_) (fun _ _ h => h)
      rw [if_pos hs, hu, h.2]
    · refine (ensures_touch_streams ..).mono (fun _ u hu => ?_) (fun _ _ h => h)
      rw [if_neg hs, hu, h.2]
  | closeStream sid => exact perform_closeStream_streams hwf now sid
  | createSnapshot name subscription labels =>
    simp only [perform, PubSubService.createSnapshot, oldestUnackedPublishTsMs, loadCursor,
      ensures_bind, ensures_pure, ensures_get, ensures_liftResult]
    refine ⟨fun sub _ => ?_, fun _ _ => rfl⟩
    cases hc : s.kv.cursors.get sub.id with
    | none => exact rfl
    | some c =>
      simp only [ensures_pure, hc]
      exact ⟨fun _ _ => ensures_onKv_streams _ s, fun _ _ => rfl⟩
  | seekToSnapshot name snapshot =>
    simp only [perform, PubSubService.seekToSnapshot, ensures_bind, ensures_pure, ensures_get,
      ensures_liftResult, ensures_ite, ensures_throw]
    exact ⟨fun _ _ => ⟨fun _ _ => ⟨fun _ => rfl, fun _ => perform_seek_streams hwf ..⟩,
      fun _ _ => rfl⟩, fun _ _ => rfl⟩
  | seekToTime name timeMs =>
    simp only [perform, PubSubService.seekToTime, loadCursor, ensures_bind, ensures_pure,
      ensures_get, ensures_liftResult]
    refine ⟨fun sub _ => ?_, fun _ _ => rfl⟩
    cases s.kv.cursors.get sub.id with
    | none => exact rfl
    | some c => exact perform_seek_streams hwf ..
  | restart => exact rfl
  | _ => exact store

theorem step_streams (hwf : s.WellFormed) (i : Input) :
    StreamEffect s i.op (step s i).1 (step s i).2 := by
  have h := perform_streams hwf i.nowMs i.op
  unfold step
  cases hp : perform i.nowMs i.op s with
  | ok r t => exact h.of_ok hp
  | error e t => exact h.of_error hp

/-- The loops that change the session of one stream act on that session alone. -/
def leasedAll (st : SessionState) (ds : List Delivered) : SessionState :=
  ds.foldl (fun st d => StreamRegistry.leased st d.seq d.message.payload.length) st

def resolvedAll (st : SessionState) (ackIds : List String) : SessionState :=
  ackIds.foldl (fun st ackId =>
    match decodeAckId ackId with
    | some (_, seq, _) => StreamRegistry.resolved st seq
    | none => st) st

theorem get_recordLeasedAll (r : StreamRegistry) (sid : Nat) (ds : List Delivered) (id : Nat) :
    (recordLeasedAll r sid ds).sessions.get id =
      if id = sid then (r.sessions.get id).map (leasedAll · ds) else r.sessions.get id := by
  induction ds generalizing r with
  | nil =>
    split_ifs
    · exact Option.map_id'.symm
    · rfl
  | cons d ds ih =>
    refine (ih _).trans ?_
    simp only [StreamRegistry.recordLeased, StreamRegistry.get_modifySession]
    split_ifs
    · rw [Option.map_map]
      rfl
    · rfl

theorem get_recordResolvedAll (r : StreamRegistry) (sid : Nat) (ackIds : List String) (id : Nat) :
    (recordResolvedAll r sid ackIds).sessions.get id =
      if id = sid then (r.sessions.get id).map (resolvedAll · ackIds) else r.sessions.get id := by
  induction ackIds generalizing r with
  | nil =>
    split_ifs
    · exact Option.map_id'.symm
    · rfl
  | cons x ackIds ih =>
    refine (ih _).trans ?_
    simp only [resolvedAll, List.foldl_cons]
    cases decodeAckId x with
    | none => rfl
    | some k =>
      simp only [StreamRegistry.recordResolved, StreamRegistry.get_modifySession]
      split_ifs
      · rw [Option.map_map]
        rfl
      · rfl

theorem resolvedAll_induction {P : SessionState → Prop} {st : SessionState} (h0 : P st)
    (hstep : ∀ st seq, P st → P (StreamRegistry.resolved st seq)) (ackIds : List String) :
    P (resolvedAll st ackIds) := by
  induction ackIds generalizing st with
  | nil => exact h0
  | cons x ackIds ih =>
    refine ih ?_
    beta_reduce
    cases decodeAckId x with
    | none => exact h0
    | some k => exact hstep st _ h0

theorem leasedAll_info (st : SessionState) (ds : List Delivered) : (leasedAll st ds).info = st.info := by
  induction ds generalizing st with
  | nil => rfl
  | cons d ds ih => exact ih _

theorem resolvedAll_info (st : SessionState) (ackIds : List String) :
    (resolvedAll st ackIds).info = st.info :=
  resolvedAll_induction (P := fun x => x.info = st.info) rfl
    (fun x q h => (StreamRegistry.resolved_info x q).trans h) ackIds

theorem get_leasedAll_of_not_mem {st : SessionState} {ds : List Delivered} {q : Nat}
    (h : q ∉ ds.map Delivered.seq) :
    (leasedAll st ds).outstanding.get q = st.outstanding.get q := by
  induction ds generalizing st with
  | nil => rfl
  | cons d ds ih =>
    rw [List.map_cons, List.mem_cons, not_or] at h
    refine (ih h.2).trans ?_
    exact SortedMap.get_insert_ne _ _ h.1

theorem get_leasedAll {st : SessionState} {ds : List Delivered} {d : Delivered}
    (hnodup : (ds.map Delivered.seq).Nodup) (hd : d ∈ ds) :
    (leasedAll st ds).outstanding.get d.seq = some d.message.payload.length := by
  induction ds generalizing st with
  | nil => cases hd
  | cons x ds ih =>
    rw [List.map_cons, List.nodup_cons] at hnodup
    rcases List.mem_cons.mp hd with rfl | hd
    · refine (get_leasedAll_of_not_mem hnodup.1).trans ?_
      exact SortedMap.get_insert_self ..
    · exact ih hnodup.2 hd

def DecodesTo (ackIds : List String) (q : Nat) : Prop :=
  ∃ ackId ∈ ackIds, ∃ j n, decodeAckId ackId = some (j, q, n)

theorem get_resolved (st : SessionState) (seq q : Nat) :
    (StreamRegistry.resolved st seq).outstanding.get q =
      if q = seq then none else st.outstanding.get q := by
  unfold StreamRegistry.resolved
  cases h : st.outstanding.get seq with
  | none =>
    split_ifs with hq
    · rw [hq, h]
    · rfl
  | some n => exact SortedMap.get_erase ..

theorem get_resolvedAll_of_decodes {st : SessionState} {ackIds : List String} {q : Nat}
    (h : DecodesTo ackIds q ∨ st.outstanding.get q = none) :
    (resolvedAll st ackIds).outstanding.get q = none := by
  induction ackIds generalizing st with
  | nil =>
    rcases h with ⟨_, hm, _⟩ | h
    · cases hm
    · exact h
  | cons x ackIds ih =>
    simp only [resolvedAll, List.foldl_cons]
    apply ih
    rcases h with ⟨ackId, hm, j, n, hdec⟩ | h
    · rcases List.mem_cons.mp hm with rfl | hm
      · right
        rw [hdec]
        exact (get_resolved st q q).trans (if_pos rfl)
      · exact Or.inl ⟨ackId, hm, j, n, hdec⟩
    · right
      cases decodeAckId x with
      | none => exact h
      | some k =>
        obtain ⟨_, seq, _⟩ := k
        rw [get_resolved, h, ite_self]

theorem get_resolvedAll_of_not_decodes {st : SessionState} {ackIds : List String} {q : Nat}
    (h : ¬ DecodesTo ackIds q) :
    (resolvedAll st ackIds).outstanding.get q = st.outstanding.get q := by
  induction ackIds generalizing st with
  | nil => rfl
  | cons x ackIds ih =>
    simp only [resolvedAll, List.foldl_cons]
    refine (ih fun ⟨ackId, hm, hdec⟩ => h ⟨ackId, List.mem_cons_of_mem _ hm, hdec⟩).trans ?_
    cases hx : decodeAckId x with
    | none => rfl
    | some k =>
      obtain ⟨j, seq, n⟩ := k
      have hne : q ≠ seq := fun he => h ⟨x, List.mem_cons_self, j, n, he ▸ hx⟩
      exact (get_resolved st seq q).trans (if_neg hne)

/-- The stream whose budget an acknowledgement or a nack releases, and the ids. -/
def resolveCall : Op → Option (Nat × List String)
  | .streamAcknowledge sid _ ackIds => some (sid, ackIds)
  | .streamModifyAckDeadline sid _ ackIds seconds =>
    if seconds ≤ 0 then some (sid, ackIds) else none
  | _ => none

/-- Where the session `st'` of the stream after a step comes from. -/
inductive SessionStep (s : Engine) (i : Input) (reply : Reply) (sid : Nat) (st' : SessionState) :
    Prop where
  | opened (hsid : sid = s.streams.nextId + 1) (hout : st'.outstanding = ∅)
      (hbytes : st'.outstandingBytes = 0)
      (hsecs : ∃ name messages bytes,
        i.op = .openStream name st'.info.ackDeadlineSecs messages bytes)
  | kept (st : SessionState) (hst : s.streams.sessions.get sid = some st)
      (hsub : st'.info.subId = st.info.subId) (htopic : st'.info.topicId = st.info.topicId)
      (hout : st'.outstanding = st.outstanding) (hbytes : st'.outstandingBytes = st.outstandingBytes)
      (hidle : i.op = .leaseForStream sid → ∃ e, reply = .failed e)
      (hsecs : st'.info.ackDeadlineSecs = st.info.ackDeadlineSecs ∨ ∃ messages bytes,
        i.op = .updateStream sid (some st'.info.ackDeadlineSecs) messages bytes)
  | leased (st : SessionState) (hst : s.streams.sessions.get sid = some st) (ds : List Delivered)
      (hop : i.op = .leaseForStream sid) (hr : reply = .delivered st.info.subId ds)
      (hst' : st' = leasedAll st ds)
  | resolved (st : SessionState) (hst : s.streams.sessions.get sid = some st)
      (ackIds : List String) (hcall : resolveCall i.op = some (sid, ackIds))
      (hok : ∀ j ids, i.op = .streamAcknowledge sid j ids → ∀ e, reply ≠ .failed e)
      (hst' : st' = resolvedAll st ackIds)

theorem sessionStep (hwf : s.WellFormed) {sid : Nat} {st' : SessionState}
    (hst' : (step s i).2.streams.sessions.get sid = some st') :
    SessionStep s i (step s i).1 sid st' := by
  have same : ∀ {st}, s.streams.sessions.get sid = some st →
      (i.op = .leaseForStream sid → ∃ e, (step s i).1 = .failed e) →
      SessionStep s i (step s i).1 sid st := by
    intro st hst hidle
    exact .kept st hst rfl rfl rfl rfl hidle (Or.inl rfl)
  have hs := step_streams hwf i
  unfold StreamEffect at hs
  split at hs
  · next hop =>
    have hidle : i.op = .leaseForStream sid → ∃ e, (step s i).1 = .failed e := by
      intro h
      rw [hop] at h
      cases h
    rcases hs with hs | ⟨info, hsecs, hs⟩
    · rw [hs] at hst'
      exact same hst' hidle
    · rw [hs] at hst'
      simp only [StreamRegistry.openStream, SortedMap.get_insert] at hst'
      split_ifs at hst' with hid
      · cases hst'
        exact .opened hid rfl rfl ⟨_, _, _, hsecs ▸ hop⟩
      · exact same hst' hidle
  · next id secs messages bytes hop =>
    have hidle : i.op = .leaseForStream sid → ∃ e, (step s i).1 = .failed e := by
      intro h
      rw [hop] at h
      cases h
    rw [hs, StreamRegistry.update, StreamRegistry.get_modifySession] at hst'
    split_ifs at hst' with hid
    · obtain ⟨st, hst, rfl⟩ := Option.map_eq_some_iff.mp hst'
      refine .kept st hst rfl rfl rfl rfl hidle ?_
      cases secs with
      | none => exact Or.inl rfl
      | some v => exact Or.inr ⟨_, _, hid ▸ hop⟩
    · exact same hst' hidle
  · next id hop =>
    rcases hs with ⟨ds, hr, hs⟩ | ⟨hfail, hs⟩
    · rw [hs, get_recordLeasedAll] at hst'
      split_ifs at hst' with hid
      · obtain ⟨st, hst, rfl⟩ := Option.map_eq_some_iff.mp hst'
        subst hid
        refine .leased st hst ds hop ?_ rfl
        rw [hr, streamSub, StreamRegistry.info, hst]
        rfl
      · refine same hst' fun h => ?_
        rw [hop] at h
        cases h
        exact absurd rfl hid
    · rw [hs] at hst'
      exact same hst' fun _ => hfail
  · next id j ackIds hop =>
    have hidle : i.op = .leaseForStream sid → ∃ e, (step s i).1 = .failed e := by
      intro h
      rw [hop] at h
      cases h
    rcases hs with ⟨hr, hs⟩ | ⟨_, hs⟩
    · rw [hs, get_recordResolvedAll] at hst'
      split_ifs at hst' with hid
      · obtain ⟨st, hst, rfl⟩ := Option.map_eq_some_iff.mp hst'
        subst hid
        refine .resolved st hst ackIds (by rw [hop]; rfl) (fun _ _ _ e he => ?_) rfl
        rw [hr] at he
        cases he
      · exact same hst' hidle
    · rw [hs] at hst'
      exact same hst' hidle
  · next id j ackIds seconds hop =>
    have hidle : i.op = .leaseForStream sid → ∃ e, (step s i).1 = .failed e := by
      intro h
      rw [hop] at h
      cases h
    rw [hs] at hst'
    split_ifs at hst' with hsec
    · rw [get_recordResolvedAll] at hst'
      split_ifs at hst' with hid
      · obtain ⟨st, hst, rfl⟩ := Option.map_eq_some_iff.mp hst'
        subst hid
        refine .resolved st hst ackIds (by rw [hop, resolveCall, if_pos hsec])
          (fun _ _ h => ?_) rfl
        rw [hop] at h
        cases h
      · exact same hst' hidle
    · exact same hst' hidle
  · next hop =>
    rw [hs] at hst'
    simp only [StreamRegistry.close, SortedMap.get_erase] at hst'
    split_ifs at hst'
    refine same hst' fun h => ?_
    rw [hop] at h
    cases h
  · rw [hs] at hst'
    cases hst'
  · next hlease _ _ _ _ =>
    rw [hs] at hst'
    exact same hst' fun h => absurd h (hlease sid)

/-- The message may be handed out at `nowMs`: it is open on the subscription, and
no lease and no retry delay holds it back. -/
def Redeliverable (s : Engine) (subId : Nat) (nowMs : Int) (seq : Nat) : Prop :=
  s.kv.pending subId seq = true ∧
    ∃ n, (s.slot subId seq).Due (reclaimPolicy s.kv subId) nowMs n

/-- What one lease call hands out. -/
structure Batch (s : Engine) (nowMs : Int) (subId topicId : Nat) (ds : List Delivered) : Prop where
  once : ∀ d ∈ ds, deliveriesOf ds d.seq = [d]
  due : ∀ d ∈ ds, Redeliverable s subId nowMs d.seq
  row : ∀ d ∈ ds, (d.seq, d.message) ∈ scanPrefix s.kv.msg topicId

theorem LeaseDone.batch {a : LeaseArgs} {out : List Delivered} (h : LeaseDone a s t out) :
    Batch s a.nowMs a.subId a.topicId out := by
  have key : ∀ d ∈ out, deliveriesOf out d.seq = [d] ∧ Redeliverable s a.subId a.nowMs d.seq ∧
      (d.seq, d.message) ∈ scanPrefix s.kv.msg a.topicId := by
    intro d hd
    have hmem : d ∈ deliveriesOf out d.seq := List.mem_filter.mpr ⟨hd, by simp⟩
    obtain ⟨e, hen, _, ho⟩ := h.slots d.seq
    cases e with
    | granted r =>
      obtain ⟨_, _, _, m, hm, _, hds⟩ := ho
      have hds' : deliveriesOf out d.seq = [deliver a d.seq m r.attempts] := hds
      rw [hds', List.mem_singleton] at hmem
      obtain ⟨hp, n, hdue, _⟩ := hen
      refine ⟨by rw [hds', ← hmem], ⟨hp, n, hdue⟩, ?_⟩
      rw [hmem]
      exact hm
    | forwarded saved =>
      rw [ho.2.1] at hmem
      cases hmem
    | idle =>
      rw [ho.1] at hmem
      cases hmem
    | retired dropped =>
      rw [ho.2.2.1] at hmem
      cases hmem
    | _ => exact ho.elim
  exact ⟨fun d hd => (key d hd).1, fun d hd => (key d hd).2.1, fun d hd => (key d hd).2.2⟩

theorem Batch.nodup {nowMs : Int} {subId topicId : Nat} {ds : List Delivered}
    (h : Batch s nowMs subId topicId ds) : (ds.map Delivered.seq).Nodup := by
  refine List.nodup_iff_count_le_one.mpr fun q => ?_
  rw [List.count, List.countP_map, List.countP_eq_length_filter]
  by_cases hq : ∃ d ∈ ds, d.seq = q
  · obtain ⟨d, hd, rfl⟩ := hq
    have hone := congrArg List.length (h.once d hd)
    refine le_of_eq (Eq.trans ?_ hone)
    exact congrArg List.length (List.filter_congr fun _ _ => by simp [Bool.beq_eq_decide_eq])
  · have hnil : ds.filter ((fun x => x == q) ∘ Delivered.seq) = [] := by
      refine List.filter_eq_nil_iff.mpr fun d hd hc => hq ⟨d, hd, by simpa using hc⟩
    rw [hnil]
    exact Nat.zero_le _

/-- A stream is handed out what a lease call within its budget gives, or nothing. -/
theorem step_streamLease (hwf : s.WellFormed) {sid : Nat} {st : SessionState} {j : Nat}
    {ds : List Delivered} (hop : i.op = .leaseForStream sid)
    (hst : s.streams.sessions.get sid = some st) (hr : (step s i).1 = .delivered j ds) :
    ds = [] ∨ 0 < (StreamRegistry.sessionBudget st).2 ∧ ∃ a u, a.subId = st.info.subId ∧
      a.topicId = st.info.topicId ∧ a.nowMs = i.nowMs ∧
      (a.maxMessages : Int) ≤ (StreamRegistry.sessionBudget st).1 ∧ LeaseDone a s u ds := by
  have h : Ensures (perform i.nowMs (.leaseForStream sid)) s
      (fun r _ => ∀ j ds, r = .delivered j ds → ds = [] ∨
        0 < (StreamRegistry.sessionBudget st).2 ∧ ∃ a u, a.subId = st.info.subId ∧
          a.topicId = st.info.topicId ∧ a.nowMs = i.nowMs ∧
          (a.maxMessages : Int) ≤ (StreamRegistry.sessionBudget st).1 ∧ LeaseDone a s u ds)
      (fun _ _ => True) := by
    have hinfo : s.streams.info sid = some st.info := by rw [StreamRegistry.info, hst]; rfl
    have hbudget : s.streams.remainingBudget sid = StreamRegistry.sessionBudget st := by
      rw [StreamRegistry.remainingBudget, hst]
    simp only [perform, leaseForStream, ensures_bind, ensures_pure, ensures_get, hinfo, hbudget,
      ensures_ite, ensures_modify]
    refine ⟨fun _ j ds hr => ?_, fun hb => ?_⟩
    · cases hr
      exact Or.inl rfl
    · refine (ensures_leaseNext hwf (hwf.session hst).2.2 ..).mono (fun ds t h j ds' hr => ?_)
        (fun _ _ _ => trivial)
      cases hr
      rw [not_or, not_le, not_le] at hb
      refine Or.inr ⟨hb.2, _, t, rfl, rfl, rfl, ?_, h⟩
      have hpos : 0 ≤ min (StreamRegistry.sessionBudget st).1 i32Max :=
        le_min (le_of_lt hb.1) (by decide)
      rw [Int.toNat_of_nonneg hpos]
      exact min_le_left _ _
  unfold step at hr
  rw [hop] at hr
  cases hp : perform i.nowMs (.leaseForStream sid) s with
  | ok r t =>
    rw [hp] at hr
    exact h.of_ok hp j ds hr
  | error e t =>
    rw [hp] at hr
    cases hr

theorem step_batch (hwf : s.WellFormed) {sid : Nat} {st : SessionState} {j : Nat}
    {ds : List Delivered} (hop : i.op = .leaseForStream sid)
    (hst : s.streams.sessions.get sid = some st) (hr : (step s i).1 = .delivered j ds) :
    Batch s i.nowMs st.info.subId st.info.topicId ds := by
  rcases step_streamLease hwf hop hst hr with rfl | ⟨_, a, u, hsub, htopic, hnow, _, hdone⟩
  · exact ⟨fun d hd => (by cases hd), fun d hd => (by cases hd), fun d hd => (by cases hd)⟩
  · rw [← hsub, ← htopic, ← hnow]
    exact hdone.batch

end OpenPubusb
