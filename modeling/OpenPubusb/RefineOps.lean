import OpenPubusb.RefineStep

/-! Every operation of the service refines the abstract machine, and so does
every step of a run from the empty store. -/

namespace OpenPubusb

open Hoare

variable {s t : Engine} {i : Input} {reply : Reply}

/-- The program `m` carries out the operation of `i`. -/
def Performs (m : EngineM Reply) (s : Engine) (i : Input) : Prop :=
  Ensures m s (fun r t => Refines s i r t) (fun e t => Refines s i (.failed e) t)

theorem quiet_done (hm : modifyCall s.kv i.op = none) (ha : ackCall s.kv i.op = none) :
    Quiet s i .done :=
  ⟨fun _ _ h => (by cases h), hm, ha⟩

theorem quiet_failed (hm : modifyCall s.kv i.op = none) (ha : ackCall s.kv i.op = none)
    (e : Error) : Quiet s i (.failed e) :=
  ⟨fun _ _ h => (by cases h), hm, ha⟩

theorem refines_failed (hwf : s.WellFormed) (hm : modifyCall s.kv i.op = none) (err : Error) :
    Refines s i (.failed err) s := by
  refine ⟨hwf, le_rfl, fun {id r'} _ hr => ⟨r', hr, rfl, fun _ => rfl⟩, fun subId seq => ?_⟩
  refine ⟨.idle, trivial, rfl, trivial, fun h => (by cases h), fun h => (by cases h), fun h => ?_,
    fun _ _ h => (by cases h), fun _ => rfl⟩
  rw [hm] at h
  cases h

theorem performs_admin {α : Type} {m : KvM α} (hwf : s.WellFormed)
    (hm : Keeps (Admin settings) m) (hmod : modifyCall s.kv i.op = none)
    (hack : ackCall s.kv i.op = none) :
    Performs (do let _ ← onKv m; pure .done) s i := by
  simp only [Performs, ensures_bind, ensures_onKv, ensures_pure]
  exact (hm s.kv).mono (fun _ _ h => refines_admin hwf (quiet_done hmod hack) h)
    (fun e _ h => refines_admin hwf (quiet_failed hmod hack e) h)

theorem performs_update {name : String} {patch : SubscriptionUpdatePatch} (hwf : s.WellFormed)
    (hop : i.op = .updateSubscription name patch) :
    Performs (do let _ ← PubSubService.updateSubscription name patch; pure .done) s i := by
  have hm : modifyCall s.kv i.op = none := by rw [hop]; rfl
  have ha : ackCall s.kv i.op = none := by rw [hop]; rfl
  have key : ∀ {reply kv'}, Quiet s i reply → Admin identity s.kv kv' →
      Refines s i reply { s with kv := kv' } := fun hq h =>
    refines_of_retouched hwf hq (h hwf.kv) fun hn => absurd hop (hn name patch)
  simp only [Performs, PubSubService.updateSubscription, ensures_bind, ensures_onKv, ensures_pure]
  exact (keeps_update name patch s.kv).mono (fun _ _ h => key (quiet_done hm ha) h)
    (fun e _ h => key (quiet_failed hm ha e) h)

theorem performs_publish {topic : String} {messages : List PublishMessage} (hwf : s.WellFormed)
    (hop : i.op = .publish topic messages) :
    Performs (do
      let r ← PubSubService.publish topic messages i.nowMs
      pure (.published r.1 r.2)) s i := by
  have hm : modifyCall s.kv i.op = none := by rw [hop]; rfl
  have ha : ackCall s.kv i.op = none := by rw [hop]; rfl
  simp only [Performs, PubSubService.publish, ensures_bind, ensures_onKv, ensures_pure,
    ensures_get, ensures_liftResult]
  refine ⟨fun r _ => ?_, fun e _ => refines_failed hwf hm e⟩
  refine (ensures_append ..).mono (fun seqs kv' h => ?_) (fun e kv' h => ?_)
  · exact refines_appended hwf ⟨fun _ _ h => (by cases h), hm, ha⟩ h.extended h.filled
      h.rows_kept.1 h.rows_kept.2
  · rcases h.2.2 with ⟨rfl, _⟩ | ⟨n, hn⟩
    · exact refines_failed hwf hm e
    · rw [hwf.healthy n] at hn
      cases hn

theorem performs_createSubscription {name topic : String} {opts : CreateSubscriptionOptions}
    (hwf : s.WellFormed) (hop : i.op = .createSubscription name topic opts) :
    Performs (do
      let _ ← PubSubService.createSubscription name topic opts i.nowMs
      pure .done) s i := by
  have hm : modifyCall s.kv i.op = none := by rw [hop]; rfl
  have ha : ackCall s.kv i.op = none := by rw [hop]; rfl
  simp only [Performs, PubSubService.createSubscription, ensures_bind, ensures_onKv, ensures_pure,
    ensures_get, ensures_liftResult]
  refine ⟨fun r _ => ?_, fun e _ => refines_failed hwf hm e⟩
  exact (ensures_createSubscription hwf.kv ..).mono
    (fun _ _ h => refines_attached hwf (quiet_done hm ha) h)
    (fun e _ h => refines_attached hwf (quiet_failed hm ha e) h)

theorem performs_deleteSubscription {name : String} (hwf : s.WellFormed)
    (hop : i.op = .deleteSubscription name) :
    Performs (do PubSubService.deleteSubscription name; pure .done) s i := by
  have hm : modifyCall s.kv i.op = none := by rw [hop]; rfl
  have ha : ackCall s.kv i.op = none := by rw [hop]; rfl
  simp only [Performs, PubSubService.deleteSubscription, ensures_bind, ensures_onKv, ensures_pure]
  exact (keeps_deleteSubscription name s.kv).mono
    (fun _ _ h => refines_pruned hwf (quiet_done hm ha) (h ⟨hwf.healthy, hwf.kv⟩))
    (fun e _ h => refines_pruned hwf (quiet_failed hm ha e) (h ⟨hwf.healthy, hwf.kv⟩))

theorem performs_sweepRetention (hwf : s.WellFormed) (hop : i.op = .sweepRetention) :
    Performs (do let _ ← PubSubService.sweepRetention i.nowMs; pure .done) s i := by
  have hm : modifyCall s.kv i.op = none := by rw [hop]; rfl
  have ha : ackCall s.kv i.op = none := by rw [hop]; rfl
  simp only [Performs, PubSubService.sweepRetention, ensures_bind, ensures_onKv, ensures_pure,
    ensures_ignore]
  refine (keeps_sweepExpiredMessages i.nowMs s.kv).mono (fun _ kv₁ h₁ => ?_) (fun e kv₁ h₁ => ?_)
  · have hx := h₁ hwf.kv
    have hp : kv₁.Healthy ∧ kv₁.WellFormed :=
      ⟨fun n => by rw [hx.ok]; exact hwf.healthy n, hx.wellFormed hwf.kv⟩
    exact (keeps_sweepSubscriptions i.nowMs kv₁).mono
      (fun _ _ h₂ => refines_swept hwf (quiet_done hm ha) hx (h₂ hp))
      (fun _ _ h₂ => refines_swept hwf (quiet_done hm ha) hx (h₂ hp))
  · exact refines_swept hwf (quiet_failed hm ha e) (h₁ hwf.kv) Pruned.refl

theorem ensures_touch (h : Refines s i reply t) (subId : Nat) (nowMs : Int)
    (E : Error → Engine → Prop) :
    Ensures (PubSubService.touch subId nowMs) t (fun _ u => Refines s i reply u) E := by
  simp only [PubSubService.touch, ensures_ignore, ensures_onKv]
  exact (keeps_touch subId nowMs t.kv).mono (fun _ _ hr => h.touched (hr h.wf.kv))
    (fun _ _ hr => h.touched (hr h.wf.kv))

theorem Engine.WellFormed.get_ok (hwf : s.WellFormed) {name : String} {r : SubscriptionRecord}
    (h : SubscriptionStore.get s.kv name = .ok r) : s.kv.subs.get r.id = some r := by
  obtain ⟨id, _, hs⟩ := get_eq_ok h
  rw [(hwf.kv.record hs).1]
  exact hs

theorem performs_pull {name : String} {maxMessages : Int} (hwf : s.WellFormed)
    (hop : i.op = .pull name maxMessages) :
    Performs (do
      let r ← PubSubService.pullDelivered name maxMessages i.nowMs
      pure (.delivered r.1.id r.2)) s i := by
  have hm : modifyCall s.kv i.op = none := by rw [hop]; rfl
  have ha : ackCall s.kv i.op = none := by rw [hop]; rfl
  simp only [Performs, PubSubService.pullDelivered, PubSubService.attached, ensures_bind,
    ensures_pure, ensures_get, ensures_liftResult, ensures_ite, ensures_throw]
  refine ⟨fun _ hvalid => ⟨fun sub hsub => ⟨fun _ => refines_failed hwf hm _, fun hlive => ?_⟩,
    fun e _ => refines_failed hwf hm e⟩, fun e _ => refines_failed hwf hm e⟩
  have hrec := hwf.get_ok hsub
  have ht : ∀ r, s.kv.subs.get sub.id = some r → r.topicId = sub.topicId := by
    intro r hr
    rw [hrec] at hr
    cases hr
    rfl
  have hcall : leaseCall s i.op = some (sub.id, sub.ackDeadlineSecs) := by
    rw [hop, leaseCall, hsub]
  refine (ensures_leaseNext_refused hwf ht ..).mono (fun ds t h => ?_) (fun e t h => ?_)
  · exact ensures_touch (h.refines hwf ht hcall rfl hm ha) ..
  · exact h.1.refines hwf ht hcall rfl hm ha (scanArgs_pull hop hsub hlive hvalid) h.2

theorem refines_acknowledged {subId : Nat} {ackIds : List String} (hwf : s.WellFormed)
    (hcall : ackCall s.kv i.op = some (subId, ackIds)) (hm : modifyCall s.kv i.op = none) :
    Ensures (acknowledge subId ackIds) s (fun _ t => Refines s i .done t)
      (fun e t => Refines s i (.failed e) t) := by
  refine (ensures_acknowledge ackIds hwf.healthy hwf.coherent).mono
    (fun _ _ h => h.refines hwf hcall hm) (fun e _ h => ?_)
  rw [h.1]
  exact refines_failed hwf hm e

theorem refines_rescheduled {subId : Nat} {ackIds : List String} {seconds : Int}
    (hwf : s.WellFormed) (hcall : modifyCall s.kv i.op = some (subId, ackIds, seconds))
    (ha : ackCall s.kv i.op = none) (hown : NoForeignModify s i.op)
    (E : Error → Engine → Prop) :
    Ensures (modifyAckDeadline subId ackIds i.nowMs seconds) s (fun _ t => Refines s i .done t) E :=
  (ensures_modifyAckDeadline ackIds i.nowMs seconds hwf.healthy hwf.coherent
    (fun x hx => hown _ _ _ hcall x hx) E).mono (fun _ _ h => h.refines hwf hcall ha)
    (fun _ _ h => h)

theorem performs_acknowledge {name : String} {ackIds : List String} (hwf : s.WellFormed)
    (hop : i.op = .acknowledge name ackIds) :
    Performs (do PubSubService.acknowledge name ackIds i.nowMs; pure .done) s i := by
  have hm : modifyCall s.kv i.op = none := by rw [hop]; rfl
  simp only [Performs, PubSubService.acknowledge, ensures_bind, ensures_pure, ensures_get,
    ensures_liftResult]
  refine ⟨fun sub hsub => ?_, fun e _ => refines_failed hwf hm e⟩
  have hcall : ackCall s.kv i.op = some (sub.id, ackIds) := by
    rw [hop, ackCall, subscriptionId, hsub]
    rfl
  exact (refines_acknowledged hwf hcall hm).mono (fun _ _ h => ensures_touch h ..) (fun _ _ h => h)

theorem performs_modifyAckDeadline {name : String} {ackIds : List String} {seconds : Int}
    (hwf : s.WellFormed) (hop : i.op = .modifyAckDeadline name ackIds seconds)
    (hown : NoForeignModify s i.op) :
    Performs (do
      PubSubService.modifyAckDeadline name ackIds i.nowMs seconds
      pure .done) s i := by
  have ha : ackCall s.kv i.op = none := by rw [hop]; rfl
  simp only [Performs, PubSubService.modifyAckDeadline, ensures_bind, ensures_pure, ensures_get,
    ensures_liftResult]
  refine ⟨fun sub hsub => ?_, fun e he => refines_failed hwf ?_ e⟩
  · have hcall : modifyCall s.kv i.op = some (sub.id, ackIds, seconds) := by
      rw [hop, modifyCall, subscriptionId, hsub]
      rfl
    exact (refines_rescheduled hwf hcall ha hown _).mono (fun _ _ h => ensures_touch h ..)
      (fun _ _ h => h)
  · rw [hop, modifyCall, subscriptionId, he]
    rfl

theorem performs_openStream {name : String} {secs maxMessages maxBytes : Int} (hwf : s.WellFormed)
    (hop : i.op = .openStream name secs maxMessages maxBytes) :
    Performs (do
      let r ← PubSubService.openStream name secs maxMessages maxBytes
      pure (.opened r.1)) s i := by
  have hm : modifyCall s.kv i.op = none := by rw [hop]; rfl
  have ha : ackCall s.kv i.op = none := by rw [hop]; rfl
  simp only [Performs, PubSubService.openStream, PubSubService.attached, openStream, setStreams,
    ensures_bind, ensures_pure, ensures_get, ensures_liftResult, ensures_ite, ensures_throw,
    ensures_modify]
  refine ⟨fun sub hsub => ⟨fun _ => refines_failed hwf hm _, fun _ => ?_⟩,
    fun e _ => refines_failed hwf hm e⟩
  have hrec := hwf.get_ok hsub
  refine ⟨⟨hwf.kv, hwf.healthy, hwf.anchored, hwf.coherent, fun {sid st} hst => ?_⟩, le_rfl,
    fun {id r'} _ hr => ⟨r', hr, rfl, fun _ => rfl⟩, fun subId seq => ⟨.idle, slotStep_of_quiet
      ⟨fun _ _ h => (by cases h), hm, ha⟩ trivial rfl trivial (fun _ h => by cases h) rfl⟩⟩
  simp only [StreamRegistry.openStream, SortedMap.get_insert] at hst ⊢
  split_ifs at hst with hid
  · cases hst
    refine ⟨le_of_eq hid, (hwf.kv.record hrec).2, fun r hr => ?_⟩
    rw [hrec] at hr
    cases hr
    rfl
  · obtain ⟨h1, h2⟩ := hwf.session hst
    exact ⟨h1.trans (Nat.le_succ _), h2⟩

/-- The same streams are open, on the same subscriptions. -/
structure SameStreams (r r' : StreamRegistry) : Prop where
  nextId : r'.nextId = r.nextId
  info : ∀ {sid st'}, r'.sessions.get sid = some st' → ∃ st, r.sessions.get sid = some st ∧
    st'.info.subId = st.info.subId ∧ st'.info.topicId = st.info.topicId

theorem SameStreams.refl (r : StreamRegistry) : SameStreams r r :=
  ⟨rfl, fun h => ⟨_, h, rfl, rfl⟩⟩

theorem SameStreams.trans {r r' r'' : StreamRegistry} (h : SameStreams r r')
    (h' : SameStreams r' r'') : SameStreams r r'' where
  nextId := h'.nextId.trans h.nextId
  info hst := by
    obtain ⟨st', hst', h1, h2⟩ := h'.info hst
    obtain ⟨st, hst'', h3, h4⟩ := h.info hst'
    exact ⟨st, hst'', h1.trans h3, h2.trans h4⟩

theorem sameStreams_modifySession (r : StreamRegistry) (streamId : Nat)
    {f : SessionState → SessionState} (hf : ∀ st, (f st).info.subId = st.info.subId ∧
      (f st).info.topicId = st.info.topicId) : SameStreams r (r.modifySession streamId f) where
  nextId := r.nextId_modifySession streamId f
  info {sid st'} hst := by
    rw [r.get_modifySession] at hst
    split_ifs at hst
    · obtain ⟨st, hst', rfl⟩ := Option.map_eq_some_iff.mp hst
      exact ⟨st, hst', hf st⟩
    · exact ⟨st', hst, rfl, rfl⟩

theorem sameStreams_recordLeasedAll (r : StreamRegistry) (streamId : Nat) (ds : List Delivered) :
    SameStreams r (recordLeasedAll r streamId ds) := by
  induction ds generalizing r with
  | nil => exact SameStreams.refl r
  | cons d ds ih =>
    exact (sameStreams_modifySession r streamId
      (f := fun st => StreamRegistry.leased st d.seq d.message.payload.length)
      fun _ => ⟨rfl, rfl⟩).trans (ih _)

theorem StreamRegistry.resolved_info (st : SessionState) (seq : Nat) :
    (StreamRegistry.resolved st seq).info = st.info := by
  unfold StreamRegistry.resolved
  cases st.outstanding.get seq <;> rfl

theorem sameStreams_recordResolvedAll (r : StreamRegistry) (streamId : Nat)
    (ackIds : List String) : SameStreams r (recordResolvedAll r streamId ackIds) := by
  induction ackIds generalizing r with
  | nil => exact SameStreams.refl r
  | cons ackId ackIds ih =>
    refine SameStreams.trans ?_ (ih _)
    beta_reduce
    cases decodeAckId ackId with
    | none => exact SameStreams.refl r
    | some k =>
      refine sameStreams_modifySession r streamId fun st => ?_
      rw [StreamRegistry.resolved_info]
      exact ⟨rfl, rfl⟩

theorem Engine.WellFormed.sameStreams {streams : StreamRegistry} (hwf : s.WellFormed)
    (hst : SameStreams s.streams streams) : ({ s with streams := streams } : Engine).WellFormed := by
  refine ⟨hwf.kv, hwf.healthy, hwf.anchored, hwf.coherent, fun {sid st} hs => ?_⟩
  obtain ⟨st', hs', h1, h2⟩ := hst.info hs
  rw [h1, h2, hst.nextId]
  exact hwf.session hs'

theorem Refines.sameStreams {streams : StreamRegistry} (h : Refines s i reply t)
    (hst : SameStreams t.streams streams) : Refines s i reply { t with streams := streams } :=
  h.restreamed hst.info hst.nextId

theorem performs_updateStream {streamId : Nat} {secs maxMessages maxBytes : Option Int}
    (hwf : s.WellFormed) (hop : i.op = .updateStream streamId secs maxMessages maxBytes) :
    Performs (do updateStream streamId secs maxMessages maxBytes; pure .done) s i := by
  have hq : Quiet s i .done := quiet_done (by rw [hop]; rfl) (by rw [hop]; rfl)
  simp only [Performs, updateStream, ensures_bind, ensures_pure, ensures_modify]
  exact (refines_refl hwf hq).sameStreams (sameStreams_modifySession _ _ fun _ => ⟨rfl, rfl⟩)

theorem performs_leaseForStream {streamId : Nat} (hwf : s.WellFormed)
    (hop : i.op = .leaseForStream streamId) :
    Performs (do
      let s ← get
      let ds ← leaseForStream streamId i.nowMs
      pure (.delivered (streamSub s streamId) ds)) s i := by
  have hm : modifyCall s.kv i.op = none := by rw [hop]; rfl
  have ha : ackCall s.kv i.op = none := by rw [hop]; rfl
  simp only [Performs, leaseForStream, ensures_bind, ensures_pure, ensures_get]
  cases hinfo : s.streams.info streamId with
  | none => exact refines_failed hwf hm _
  | some info =>
    obtain ⟨st, hst, rfl⟩ := Option.map_eq_some_iff.mp hinfo
    have ht : ∀ r, s.kv.subs.get st.info.subId = some r → r.topicId = st.info.topicId :=
      (hwf.session hst).2.2
    have hsub : streamSub s streamId = st.info.subId := by
      rw [streamSub, hinfo]
      rfl
    have hcall : leaseCall s i.op = some (st.info.subId, st.info.ackDeadlineSecs) := by
      rw [hop, leaseCall, hinfo]
      rfl
    have hbudget : s.streams.remainingBudget streamId = StreamRegistry.sessionBudget st := by
      rw [StreamRegistry.remainingBudget, hst]
    simp only [ensures_ite, ensures_pure, ensures_bind, ensures_modify, hsub, hbudget]
    refine ⟨fun _ => ?_, fun hleft => ?_⟩
    · exact (LeaseDone.refl ⟨st.info.subId, st.info.topicId, 0, i.nowMs, st.info.ackDeadlineSecs,
        none⟩ s).refines hwf ht hcall rfl hm ha
    · have hargs := scanArgs_leaseForStream hop hst (not_or.mp hleft).2
      refine (ensures_leaseNext_refused hwf ht ..).mono (fun ds t h => ?_) (fun e t h => ?_)
      · exact (h.refines hwf ht hcall rfl hm ha).sameStreams (sameStreams_recordLeasedAll ..)
      · exact h.1.refines hwf ht hcall rfl hm ha hargs h.2

theorem performs_streamAcknowledge {streamId subId : Nat} {ackIds : List String}
    (hwf : s.WellFormed) (hop : i.op = .streamAcknowledge streamId subId ackIds) :
    Performs (do
      PubSubService.streamAcknowledge streamId subId ackIds i.nowMs
      pure .done) s i := by
  have hm : modifyCall s.kv i.op = none := by rw [hop]; rfl
  have hcall : ackCall s.kv i.op = some (subId, ackIds) := by rw [hop]; rfl
  simp only [Performs, PubSubService.streamAcknowledge, streamAcknowledge, ensures_bind,
    ensures_pure, ensures_modify]
  exact (refines_acknowledged hwf hcall hm).mono
    (fun _ _ h => ensures_touch (h.sameStreams (sameStreams_recordResolvedAll ..)) ..)
    (fun _ _ h => h)

theorem performs_streamModifyAckDeadline {streamId subId : Nat} {ackIds : List String}
    {seconds : Int} (hwf : s.WellFormed)
    (hop : i.op = .streamModifyAckDeadline streamId subId ackIds seconds)
    (hown : NoForeignModify s i.op) :
    Performs (do
      PubSubService.streamModifyAckDeadline streamId subId ackIds i.nowMs seconds
      pure .done) s i := by
  have ha : ackCall s.kv i.op = none := by rw [hop]; rfl
  have hcall : modifyCall s.kv i.op = some (subId, ackIds, seconds) := by rw [hop]; rfl
  simp only [Performs, PubSubService.streamModifyAckDeadline, streamModifyAckDeadline,
    ensures_bind, ensures_pure, ensures_ite, ensures_modify]
  refine (refines_rescheduled hwf hcall ha hown _).mono (fun _ t h => ⟨fun _ => ?_, fun _ => ?_⟩)
    (fun _ _ h => h)
  · exact ensures_touch (h.sameStreams (sameStreams_recordResolvedAll ..)) ..
  · exact ensures_touch h ..

theorem performs_closeStream {streamId : Nat} (hwf : s.WellFormed)
    (hop : i.op = .closeStream streamId) :
    Performs (do onStreamClosed streamId; pure .done) s i := by
  have hq : Quiet s i .done := quiet_done (by rw [hop]; rfl) (by rw [hop]; rfl)
  simp only [Performs, onStreamClosed, setStreams, ensures_bind, ensures_pure, ensures_get,
    ensures_modify]
  cases hst : s.streams.sessions.get streamId with
  | none =>
    have hnone : (s.streams.close streamId).2 = none := by
      simp only [StreamRegistry.close, hst, Option.map_none]
    simp only [hnone, ensures_pure]
    refine (refines_refl hwf hq).restreamed (fun {sid st} h => ?_) rfl
    simp only [StreamRegistry.close, SortedMap.get_erase] at h
    split_ifs at h
    exact ⟨st, h, rfl, rfl⟩
  | some st =>
    have hsome : (s.streams.close streamId).2 = some (st.info.subId, st.outstanding.keys) := by
      simp only [StreamRegistry.close, hst, Option.map_some]
    simp only [hsome]
    exact (ensures_releaseAll (s := { s with streams := (s.streams.close streamId).1 }) _
      hwf.healthy _).mono (fun _ t h => refines_released hwf hop hst rfl h) (fun _ _ h => h)

theorem performs_seek {subId : Nat} {c : CursorRecord} {r : SubscriptionRecord}
    (hwf : s.WellFormed) (hcall : seekTarget s.kv i.op = some (subId, c))
    (hr : s.kv.subs.get subId = some r) (hq : Quiet s i .done) (E : Error → Engine → Prop) :
    Ensures (restoreCursor subId c) s (fun _ t => Refines s i .done t) E :=
  (ensures_restoreCursor c hwf.healthy E).mono (fun _ _ h => refines_restored hwf hq hcall hr h)
    (fun _ _ h => h)

theorem performs_seekToSnapshot {name snapshot : String} (hwf : s.WellFormed)
    (hop : i.op = .seekToSnapshot name snapshot) :
    Performs (do PubSubService.seekToSnapshot name snapshot; pure .done) s i := by
  have hm : modifyCall s.kv i.op = none := by rw [hop]; rfl
  have hq : Quiet s i .done := quiet_done hm (by rw [hop]; rfl)
  simp only [Performs, PubSubService.seekToSnapshot, ensures_bind, ensures_pure, ensures_get,
    ensures_liftResult, ensures_ite, ensures_throw]
  refine ⟨fun sub hsub => ⟨fun snap hsnap => ⟨fun _ => refines_failed hwf hm _, fun htopic => ?_⟩,
    fun e _ => refines_failed hwf hm e⟩, fun e _ => refines_failed hwf hm e⟩
  have hcall : seekTarget s.kv i.op = some (sub.id, snap.cursor) := by
    simp only [hop, seekTarget, hsub, hsnap, if_pos (not_not.mp htopic)]
  exact performs_seek hwf hcall (hwf.get_ok hsub) hq _

theorem performs_seekToTime {name : String} {timeMs : Int} (hwf : s.WellFormed)
    (hop : i.op = .seekToTime name timeMs) :
    Performs (do PubSubService.seekToTime name timeMs; pure .done) s i := by
  have hm : modifyCall s.kv i.op = none := by rw [hop]; rfl
  have hq : Quiet s i .done := quiet_done hm (by rw [hop]; rfl)
  simp only [Performs, PubSubService.seekToTime, loadCursor, ensures_bind, ensures_pure,
    ensures_get, ensures_liftResult]
  refine ⟨fun sub hsub => ?_, fun e _ => refines_failed hwf hm e⟩
  cases hc : s.kv.cursors.get sub.id with
  | none => exact refines_failed hwf hm _
  | some c =>
    have hcall : seekTarget s.kv i.op = some (sub.id, .fresh c.attachSeq
        (max (TopicStore.seqBoundaryForTime s.kv sub.topicId timeMs - 1) c.attachSeq)) := by
      simp only [hop, seekTarget, hsub, hc, Option.map_some]
    exact performs_seek hwf hcall (hwf.get_ok hsub) hq _

theorem performs_createSnapshot {name subscription : String} {labels : SortedMap String String}
    (hwf : s.WellFormed) (hop : i.op = .createSnapshot name subscription labels) :
    Performs (do
      let _ ← PubSubService.createSnapshot name subscription labels i.nowMs
      pure .done) s i := by
  have hm : modifyCall s.kv i.op = none := by rw [hop]; rfl
  have ha : ackCall s.kv i.op = none := by rw [hop]; rfl
  simp only [Performs, PubSubService.createSnapshot, oldestUnackedPublishTsMs, loadCursor,
    ensures_bind, ensures_pure, ensures_get, ensures_liftResult]
  refine ⟨fun sub hsub => ?_, fun e _ => refines_failed hwf hm e⟩
  cases hc : s.kv.cursors.get sub.id with
  | none => exact refines_failed hwf hm _
  | some c =>
    simp only [ensures_pure, ensures_onKv, hc]
    refine ⟨fun _ _ => ?_, fun e _ => refines_failed hwf hm e⟩
    exact (keeps_createSnapshot _ _ _ _ _ _ s.kv).mono
      (fun _ _ h => refines_admin hwf (quiet_done hm ha) h)
      (fun e _ h => refines_admin hwf (quiet_failed hm ha e) h)

theorem keeps_serviceDeleteTopic (name : String) :
    Keeps (Admin settings) (do
      let kv ← get
      let record ← liftResult (TopicStore.get kv name)
      PubSubService.setTopicsToDeleted (SubscriptionStore.listByTopicId kv record.id)
      TopicStore.delete name) :=
  Keeps.bind Keeps.get fun _ => Keeps.bind (Keeps.liftResult _) fun _ =>
    Keeps.bind (keeps_setTopicsToDeleted _) fun _ => keeps_deleteTopic name

theorem keeps_sweepExpiredSnapshots (projectId : String) (nowMs : Int) :
    Keeps (Admin settings) (SnapshotStore.sweepExpired projectId nowMs) :=
  Keeps.bind Keeps.estateGet fun _ => Keeps.bind (Keeps.liftResult _) fun _ =>
    keeps_sweepSnapshots nowMs _

theorem perform_refines (hwf : s.WellFormed) (hown : NoForeignModify s i.op) :
    Performs (perform i.nowMs i.op) s i := by
  have admin : ∀ {α : Type} {m : KvM α}, Keeps (Admin settings) m →
      modifyCall s.kv i.op = none ∧ ackCall s.kv i.op = none →
      Performs (do let _ ← onKv m; pure .done) s i := fun hm h => performs_admin hwf hm h.1 h.2
  cases hop : i.op with
  | createTopic => exact admin (keeps_createTopic _ _ _ _ _ _) (by rw [hop]; exact ⟨rfl, rfl⟩)
  | updateTopic => exact admin (keeps_updateTopic _ _ _ _) (by rw [hop]; exact ⟨rfl, rfl⟩)
  | deleteTopic name => exact admin (keeps_serviceDeleteTopic name) (by rw [hop]; exact ⟨rfl, rfl⟩)
  | publish => exact performs_publish hwf hop
  | pull => exact performs_pull hwf hop
  | acknowledge => exact performs_acknowledge hwf hop
  | modifyAckDeadline => exact performs_modifyAckDeadline hwf hop hown
  | sweepSubscription => exact refines_sweepLeases hwf hop
  | sweepRetention => exact performs_sweepRetention hwf hop
  | createSubscription => exact performs_createSubscription hwf hop
  | updateSubscription => exact performs_update hwf hop
  | deleteSubscription => exact performs_deleteSubscription hwf hop
  | detachSubscription name => exact admin (keeps_detach name) (by rw [hop]; exact ⟨rfl, rfl⟩)
  | modifyPushConfig name c => exact admin (keeps_setPushConfig name c) (by rw [hop]; exact ⟨rfl, rfl⟩)
  | openStream => exact performs_openStream hwf hop
  | updateStream => exact performs_updateStream hwf hop
  | leaseForStream => exact performs_leaseForStream hwf hop
  | streamAcknowledge => exact performs_streamAcknowledge hwf hop
  | streamModifyAckDeadline => exact performs_streamModifyAckDeadline hwf hop hown
  | closeStream => exact performs_closeStream hwf hop
  | createSnapshot => exact performs_createSnapshot hwf hop
  | updateSnapshotLabels => exact admin (keeps_updateSnapshotLabels _ _) (by rw [hop]; exact ⟨rfl, rfl⟩)
  | deleteSnapshot name => exact admin (keeps_deleteSnapshot name) (by rw [hop]; exact ⟨rfl, rfl⟩)
  | sweepExpiredSnapshots projectId =>
    exact admin (keeps_sweepExpiredSnapshots projectId i.nowMs) (by rw [hop]; exact ⟨rfl, rfl⟩)
  | seekToSnapshot => exact performs_seekToSnapshot hwf hop
  | seekToTime => exact performs_seekToTime hwf hop
  | restart => exact refines_restart hwf hop

theorem step_refines (hwf : s.WellFormed) (hown : NoForeignModify s i.op) :
    Refines s i (step s i).1 (step s i).2 := by
  have h := perform_refines hwf hown
  unfold step
  cases hp : perform i.nowMs i.op s with
  | ok r t => exact h.of_ok hp
  | error e t => exact h.of_error hp

theorem ensures_step {P : Engine → Prop}
    (h : Ensures (perform i.nowMs i.op) s (fun _ t => P t) (fun _ t => P t)) : P (step s i).2 := by
  unfold step
  cases hp : perform i.nowMs i.op s with
  | ok r t => exact h.of_ok hp
  | error e t => exact h.of_error hp

/-- Whatever its ids name, a deadline change keeps the state well-formed and the
streams as they are. -/
theorem ensures_modify_wellFormed {subId : Nat} (ackIds : List String) (nowMs seconds : Int)
    (hwf : s.WellFormed) (E : Error → Engine → Prop) :
    Ensures (modifyAckDeadline subId ackIds nowMs seconds) s
      (fun _ t => t.WellFormed ∧ t.streams = s.streams) E := by
  induction ackIds generalizing s with
  | nil => exact ⟨hwf, rfl⟩
  | cons ackId ackIds ih =>
    simp only [modifyAckDeadline, setLeases, ensures_bind, ensures_get, ensures_modify]
    rcases s.leases.resolveAck_cases ackId
      (fun i q l => (s.leases.reschedule i q l (LeaseTable.extendedDeadline nowMs seconds),
        .applied { l with deadlineMs := LeaseTable.extendedDeadline nowMs seconds })) with
      ⟨i, q, l, hl, _, he⟩ | ⟨_, he, hout⟩
    · have hext : s.leases.extend ackId nowMs seconds =
          (s.leases.reschedule i q l (LeaseTable.extendedDeadline nowMs seconds),
            .applied { l with deadlineMs := LeaseTable.extendedDeadline nowMs seconds }) := he
      simp only [hext, ensures_bind, ensures_onKv, putDlv, ensures_kvWrite_healthy hwf.healthy]
      exact ih (s := { s with
        leases := s.leases.reschedule i q l (LeaseTable.extendedDeadline nowMs seconds)
        kv := _ }) (hwf.of_rest ⟨_, _, rfl⟩ (hwf.coherent.reschedule hl _) rfl)
    · have hext : (s.leases.extend ackId nowMs seconds).1 = s.leases := he
      rw [hext]
      cases ho : (s.leases.extend ackId nowMs seconds).2 with
      | applied l => exact absurd ho (hout l)
      | _ => exact ih hwf

theorem ensures_touch_wellFormed (hwf : s.WellFormed) (subId : Nat) (nowMs : Int)
    (E : Error → Engine → Prop) :
    Ensures (PubSubService.touch subId nowMs) s (fun _ t => t.WellFormed) E := by
  simp only [PubSubService.touch, ensures_ignore, ensures_onKv]
  exact (keeps_touch subId nowMs s.kv).mono (fun _ _ hr => (hr hwf.kv).engine hwf)
    (fun _ _ hr => (hr hwf.kv).engine hwf)

theorem perform_wellFormed (hwf : s.WellFormed) (now : Int) (op : Op) :
    Ensures (perform now op) s (fun _ t => t.WellFormed) (fun _ t => t.WellFormed) := by
  by_cases hown : NoForeignModify s op
  · exact (perform_refines (i := ⟨now, op⟩) hwf hown).mono (fun _ _ h => h.wf) (fun _ _ h => h.wf)
  · cases op with
    | modifyAckDeadline name ackIds seconds =>
      simp only [perform, PubSubService.modifyAckDeadline, ensures_bind, ensures_get,
        ensures_liftResult, ensures_pure]
      refine ⟨fun _ _ => ?_, fun _ _ => hwf⟩
      exact (ensures_modify_wellFormed ackIds now seconds hwf _).mono
        (fun _ _ h => ensures_touch_wellFormed h.1 ..) (fun _ _ h => h)
    | streamModifyAckDeadline streamId subId ackIds seconds =>
      simp only [perform, PubSubService.streamModifyAckDeadline, streamModifyAckDeadline,
        ensures_bind, ensures_ite, ensures_modify, ensures_pure]
      refine (ensures_modify_wellFormed ackIds now seconds hwf _).mono (fun _ t h => ⟨fun _ => ?_,
        fun _ => ensures_touch_wellFormed h.1 ..⟩) (fun _ _ h => h)
      exact ensures_touch_wellFormed
        (h.1.sameStreams (sameStreams_recordResolvedAll t.streams streamId ackIds)) ..
    | _ => exact absurd (fun _ _ _ h => by cases h) hown

theorem wellFormed_step (hwf : s.WellFormed) (i : Input) : (step s i).2.WellFormed :=
  ensures_step (perform_wellFormed hwf i.nowMs i.op)

theorem wellFormed_start : start.WellFormed where
  kv := Kv.wellFormed_empty
  healthy _ := rfl
  anchored h := by cases h
  coherent := coherent_recoveredLeases _
  session h := by cases h

theorem wellFormed_final (is : List Input) : (Run.final step start is).WellFormed :=
  Run.inv_final (P := Engine.WellFormed) (C := fun _ => True)
    (fun _ i h _ => wellFormed_step h i) wellFormed_start fun _ _ => trivial

theorem wellFormed_pre {is : List Input} {tr : Transition} (h : tr ∈ history is) :
    tr.pre.WellFormed := by
  obtain ⟨l, l', hl⟩ := List.append_of_mem h
  obtain ⟨is₁, j, is₂, _, _, htr, _⟩ := Run.trace_eq_append hl
  rw [htr]
  exact wellFormed_final is₁

/-- The lease call behind a reply with deliveries: it leads from `s` to `u`, and
afterwards the activity time and the streams are brought up to date. -/
structure Leased (s : Engine) (i : Input) (subId : Nat) (ds : List Delivered) (a : LeaseArgs)
    (u t : Engine) : Prop where
  sub : a.subId = subId
  call : leaseCall s i.op = some (subId, a.ackDeadlineSecs)
  now : a.nowMs = i.nowMs
  filter : a.filter = s.filterOf subId
  topic : ∀ r, s.kv.subs.get subId = some r → r.topicId = a.topicId
  done : LeaseDone a s u ds
  kv : Retouched settings u.kv t.kv
  leases : t.leases = u.leases
  log : t.deadLettered = u.deadLettered

theorem Leased.slot_eq {subId : Nat} {ds : List Delivered} {a : LeaseArgs} {u : Engine}
    (h : Leased s i subId ds a u t) (j q : Nat) : t.slot j q = u.slot j q := by
  have hslot := h.kv.slot_eq (s := u) j q
  simp only [Engine.slot] at hslot ⊢
  rw [h.leases]
  exact hslot

theorem ensures_no_delivery {α : Type} {m : EngineM α} {f : α → Reply} {P : Nat → List Delivered →
    Engine → Prop} {c : Option (Nat × Int)} {R : Reply → Prop} {E : Error → Engine → Prop}
    (hf : ∀ a j ds, f a ≠ .delivered j ds) (hc : c = none) (he : ∀ e t, E e t) :
    Ensures (m >>= fun a => pure (f a)) s
      (fun r t => (∀ j ds, r = .delivered j ds → P j ds t) ∧ (c ≠ none → R r)) E := by
  rw [ensures_bind]
  unfold Ensures
  cases m s with
  | ok a t => exact ⟨fun j ds h => absurd h (hf a j ds), fun h => absurd hc h⟩
  | error e t => exact he e t

theorem perform_leased (hwf : s.WellFormed) :
    Ensures (perform i.nowMs i.op) s
      (fun r t => (∀ subId ds, r = .delivered subId ds → ∃ a u, Leased s i subId ds a u t) ∧
        (leaseCall s i.op ≠ none → ∃ subId ds, r = .delivered subId ds))
      (fun _ t => leaseCall s i.op ≠ none → t.kv.cursors = s.kv.cursors) := by
  cases hop : i.op with
  | pull name n =>
    simp only [perform, PubSubService.pullDelivered, PubSubService.attached, ensures_bind,
      ensures_pure, ensures_get, ensures_liftResult, ensures_ite, ensures_throw]
    refine ⟨fun _ _ => ⟨fun sub hsub => ⟨fun _ _ => trivial, fun _ => ?_⟩, fun _ _ _ => trivial⟩,
      fun _ _ _ => trivial⟩
    have ht : ∀ r, s.kv.subs.get sub.id = some r → r.topicId = sub.topicId := by
      intro r hr
      rw [hwf.get_ok hsub] at hr
      cases hr
      rfl
    have hcall : leaseCall s i.op = some (sub.id, sub.ackDeadlineSecs) := by
      rw [hop, leaseCall, hsub]
    refine (ensures_leaseNext hwf ht ..).mono (fun ds u h => ?_) (fun _ _ h _ => h.unsaved)
    simp only [PubSubService.touch, ensures_ignore, ensures_onKv]
    have hu := h.wellFormed hwf
    have key : ∀ kv', Admin settings u.kv kv' →
        (∀ subId ds', Reply.delivered sub.id ds = .delivered subId ds' →
          ∃ a u', Leased s i subId ds' a u' { u with kv := kv' }) ∧
        (leaseCall s (.pull name n) ≠ none →
          ∃ subId ds', Reply.delivered sub.id ds = .delivered subId ds') := by
      refine fun kv' hkv => ⟨fun subId ds' hr => ?_, fun _ => ⟨sub.id, ds, rfl⟩⟩
      cases hr
      exact ⟨_, u, rfl, hcall, rfl, rfl, ht, h, hkv hu.kv, rfl, rfl⟩
    exact (keeps_touch sub.id i.nowMs u.kv).mono (fun _ kv' hkv => key kv' hkv)
      (fun _ kv' hkv => key kv' hkv)
  | leaseForStream sid =>
    simp only [perform, leaseForStream, ensures_bind, ensures_pure, ensures_get]
    cases hinfo : s.streams.info sid with
    | none => exact fun _ => rfl
    | some info =>
      obtain ⟨st, hst, rfl⟩ := Option.map_eq_some_iff.mp hinfo
      have hsub : streamSub s sid = st.info.subId := by
        rw [streamSub, hinfo]
        rfl
      have ht := (hwf.session hst).2.2
      have hcall : leaseCall s i.op = some (st.info.subId, st.info.ackDeadlineSecs) := by
        rw [hop, leaseCall, hinfo]
        rfl
      simp only [ensures_ite, ensures_pure, ensures_bind, ensures_modify, hsub]
      refine ⟨fun _ => ⟨fun subId ds' hr => ?_, fun _ => ⟨_, _, rfl⟩⟩, fun _ => ?_⟩
      · cases hr
        exact ⟨⟨st.info.subId, st.info.topicId, 0, i.nowMs, st.info.ackDeadlineSecs,
          s.filterOf st.info.subId⟩, s, rfl, hcall, rfl, rfl, ht, .refl _ s, .refl, rfl, rfl⟩
      · refine (ensures_leaseNext hwf ht ..).mono
          (fun ds u h => ⟨fun subId ds' hr => ?_, fun _ => ⟨_, _, rfl⟩⟩) (fun _ _ h _ => h.unsaved)
        cases hr
        exact ⟨_, u, rfl, hcall, rfl, rfl, ht, h, .refl, rfl, rfl⟩
  | _ => exact ensures_no_delivery (fun _ _ _ h => by cases h) rfl fun _ _ h => absurd rfl h

theorem step_leased (hwf : s.WellFormed) {subId : Nat} {ds : List Delivered}
    (hr : (step s i).1 = .delivered subId ds) : ∃ a u, Leased s i subId ds a u (step s i).2 := by
  have h := perform_leased (i := i) hwf
  unfold step at hr ⊢
  cases hp : perform i.nowMs i.op s with
  | ok r t =>
    rw [hp] at hr
    exact (h.of_ok hp).1 subId ds hr
  | error e t =>
    rw [hp] at hr
    cases hr

theorem step_leaseCall (hwf : s.WellFormed) {subId : Nat} {secs : Int}
    (hcall : leaseCall s i.op = some (subId, secs)) :
    (∃ ds a u, Leased s i subId ds a u (step s i).2) ∨
      (step s i).2.kv.cursors = s.kv.cursors := by
  have h := perform_leased (i := i) hwf
  have hne : leaseCall s i.op ≠ none := by simp [hcall]
  unfold step
  cases hp : perform i.nowMs i.op s with
  | ok r t =>
    obtain ⟨hleased, hreply⟩ := h.of_ok hp
    obtain ⟨j, ds, hr⟩ := hreply hne
    obtain ⟨a, u, hl⟩ := hleased j ds hr
    have hj := hl.call
    rw [hcall] at hj
    cases hj
    exact Or.inl ⟨ds, a, u, hl⟩
  | error e t => exact Or.inr (h.of_error hp hne)

end OpenPubusb
