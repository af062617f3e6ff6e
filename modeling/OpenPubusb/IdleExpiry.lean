import OpenPubusb.LogSteps
import OpenPubusb.PolicyFields

/-! The last activity of a subscription and its expiration. The time of a record is set
when it is created and by the calls that end with a touch; a lease on a stream is not one
of them. -/

namespace OpenPubusb

open Hoare

/-- The subscription that a consumer's call is performed on. -/
def activeOn (s : Engine) : Op → Option Nat
  | .pull name maxMessages =>
    match validatePullMaxMessages (max maxMessages 1), SubscriptionStore.get s.kv name with
    | .ok _, .ok r => if r.detached ∨ r.topic = deletedTopic then none else some r.id
    | _, _ => none
  | .leaseForStream streamId => (s.streams.info streamId).map StreamInfo.subId
  | .acknowledge name _ => subscriptionId s.kv name
  | .modifyAckDeadline name _ _ => subscriptionId s.kv name
  | .streamAcknowledge _ subId _ => some subId
  | .streamModifyAckDeadline _ subId _ _ => some subId
  | _ => none

/-- The calls that end with a touch of their subscription. -/
def Op.touches : Op → Bool
  | .pull .. => true
  | .acknowledge .. => true
  | .modifyAckDeadline .. => true
  | .streamAcknowledge .. => true
  | .streamModifyAckDeadline .. => true
  | _ => false

section Steps

/-- The records are the same, and so is what the store accepts. -/
def SameSubs (kv kv' : Kv) : Prop := kv'.subs = kv.subs ∧ kv'.ok = kv.ok

instance : LogFrame SameSubs where
  refl _ := ⟨rfl, rfl⟩
  trans h h' := ⟨h'.1.trans h.1, h'.2.trans h.2⟩
  dlv _ _ _ := ⟨rfl, rfl⟩
  log _ _ _ _ := ⟨rfl, rfl⟩

instance : CursorFrame SameSubs where
  cursor _ _ _ := ⟨rfl, rfl⟩

/-- The record of the subscription has the new time, the others are as they were. -/
def TouchedAt (subId : Nat) (nowMs : Int) (kv kv' : Kv) : Prop :=
  ∀ id, kv'.subs.get id = if id = subId then
    (kv.subs.get id).map fun r => { r with lastActivityTsMs := nowMs } else kv.subs.get id

variable {s : Engine} {nowMs : Int} {op : Op}

theorem ensures_touch_at (hc : Consistent s.kv) (hh : s.kv.Healthy) {t : Engine}
    (hsame : SameSubs s.kv t.kv) (subId : Nat) :
    Ensures (PubSubService.touch subId nowMs) t
      (fun _ u => TouchedAt subId nowMs s.kv u.kv) (fun _ _ => False) := by
  have hh' : t.kv.Healthy := fun n => by
    rw [hsame.2]
    exact hh n
  simp only [PubSubService.touch, ensures_ignore, ensures_onKv, SubscriptionStore.touch,
    ensures_bind, ensures_estateGet]
  cases hl : SubscriptionStore.load t.kv subId s!"sub_id={subId}" with
  | error e =>
    have hnone : t.kv.subs.get subId = none := by
      cases hr : t.kv.subs.get subId with
      | none => rfl
      | some r =>
        rw [SubscriptionStore.load, hr] at hl
        cases hl
    refine fun id => ?_
    rw [← hsame.1]
    split_ifs with hid
    · rw [hid, hnone]
      rfl
    · rfl
  | ok r =>
    have hr := load_eq_ok hl
    obtain rfl : r.id = subId := (hc.subs.record (hsame.1 ▸ hr)).2
    simp only [SubscriptionStore.persist, putSub, putSubName, ensures_bind]
    refine (ensures_kvWrite_healthy hh').mpr ((ensures_kvWrite_healthy ?_).mpr fun id => ?_)
    · exact fun n => hh' n
    change (t.kv.subs.insert r.id _).get id = _
    rw [← hsame.1, SortedMap.get_insert]
    split_ifs with h
    · rw [h, hr]
      rfl
    · rfl

theorem sameSubs_modifyAckDeadline (subId : Nat) (ackIds : List String) (secs : Int) :
    Keeps (OnStore SameSubs) (modifyAckDeadline subId ackIds nowMs secs) :=
  keeps_modifyAckDeadline subId ackIds nowMs secs

/-- A call that touches: it fails and leaves the records, or it is recorded. -/
theorem ensures_touching (hc : Consistent s.kv) (hh : s.kv.Healthy) (h : op.touches = true) :
    Ensures (perform nowMs op) s
      (fun r t => (∀ e, r ≠ .failed e) ∧
        ∃ subId, activeOn s op = some subId ∧ TouchedAt subId nowMs s.kv t.kv)
      (fun _ t => t.kv.subs = s.kv.subs) := by
  have hend : ∀ {subId : Nat} {t : Engine} {r : Reply}, (∀ e, r ≠ .failed e) →
      activeOn s op = some subId → SameSubs s.kv t.kv →
      Ensures (PubSubService.touch subId nowMs) t
        (fun _ u => (∀ e, r ≠ .failed e) ∧
          ∃ subId, activeOn s op = some subId ∧ TouchedAt subId nowMs s.kv u.kv)
        (fun _ u => u.kv.subs = s.kv.subs) := by
    intro subId t r hr hactive ht
    exact (ensures_touch_at hc hh ht subId).mono (fun _ u hu => ⟨hr, subId, hactive, hu⟩)
      (fun _ _ h => h.elim)
  cases op with
  | pull name n =>
    simp only [perform, PubSubService.pullDelivered, PubSubService.attached, ensures_bind,
      ensures_get, ensures_liftResult, ensures_ite, ensures_pure, ensures_throw]
    refine ⟨fun _ hv => ⟨fun r hr => ⟨fun _ => trivial, fun hatt => ?_⟩, fun _ _ => trivial⟩, fun _ _ => trivial⟩
    have hactive : activeOn s (.pull name n) = some r.id := by
      simp only [activeOn, hv, hr, if_neg hatt]
    have hlease : Keeps (OnStore SameSubs)
        (leaseNext r.id r.topicId n nowMs r.ackDeadlineSecs) := keeps_leaseNext _ _ _ _ _
    exact (hlease s).mono (fun _ t ht => hend (fun _ h => by cases h) hactive ht) (fun _ _ ht => ht.1)
  | acknowledge name ackIds =>
    simp only [perform, PubSubService.acknowledge, ensures_bind, ensures_get, ensures_liftResult,
      ensures_pure]
    refine ⟨fun r hr => ?_, fun _ _ => trivial⟩
    have hactive : activeOn s (.acknowledge name ackIds) = some r.id := by
      simp only [activeOn, subscriptionId, hr]
    have hack : Keeps (OnStore SameSubs) (acknowledge r.id ackIds) := keeps_acknowledge _ _
    exact (hack s).mono (fun _ t ht => hend (fun _ h => by cases h) hactive ht) (fun _ _ ht => ht.1)
  | modifyAckDeadline name ackIds secs =>
    simp only [perform, PubSubService.modifyAckDeadline, ensures_bind, ensures_get,
      ensures_liftResult, ensures_pure]
    refine ⟨fun r hr => ?_, fun _ _ => trivial⟩
    have hactive : activeOn s (.modifyAckDeadline name ackIds secs) = some r.id := by
      simp only [activeOn, subscriptionId, hr]
    exact (sameSubs_modifyAckDeadline r.id ackIds secs s).mono (fun _ t ht => hend (fun _ h => by cases h) hactive ht)
      (fun _ _ ht => ht.1)
  | streamAcknowledge streamId subId ackIds =>
    simp only [perform, PubSubService.streamAcknowledge, streamAcknowledge,
      ensures_bind, ensures_modify, ensures_pure]
    have hack : Keeps (OnStore SameSubs) (acknowledge subId ackIds) := keeps_acknowledge _ _
    exact (hack s).mono (fun _ t ht => hend (fun _ h => by cases h) rfl ht) (fun _ _ ht => ht.1)
  | streamModifyAckDeadline streamId subId ackIds secs =>
    simp only [perform, PubSubService.streamModifyAckDeadline, streamModifyAckDeadline,
      ensures_bind, ensures_pure]
    refine (sameSubs_modifyAckDeadline subId ackIds secs s).mono (fun _ t ht => ?_)
      (fun _ _ ht => ht.1)
    simp only [ensures_ite, ensures_modify, ensures_pure]
    exact ⟨fun _ => hend (fun _ h => by cases h) rfl ht, fun _ => hend (fun _ h => by cases h) rfl ht⟩
  | _ => cases h

def Fewer (kv kv' : Kv) : Prop := ∀ id r, kv'.subs.get id = some r → kv.subs.get id = some r

instance : LogFrame Fewer where
  refl _ _ _ h := h
  trans h h' id r hr := h id r (h' id r hr)
  dlv _ _ _ _ _ h := h
  log _ _ _ _ _ _ h := h

instance : CursorFrame Fewer where
  cursor _ _ _ _ _ h := h

theorem fewer_write {f : Kv → Kv} (h : ∀ kv, (f kv).subs = kv.subs) : Keeps Fewer (kvWrite f) :=
  keeps_kvWrite RowFrame.tick fun kv _ _ hr => h kv ▸ hr

theorem fewer_nextId : Keeps Fewer nextId :=
  Keeps.bind Keeps.get fun _ => Keeps.bind (fewer_write fun _ => rfl) fun _ => Keeps.pure _

theorem fewer_deleteSubscription (name : String) : Keeps Fewer (SubscriptionStore.delete name) := by
  refine Keeps.bind Keeps.estateGet fun kv => Keeps.bind (Keeps.liftResult _) fun r => ?_
  refine Keeps.bind ?_ fun _ => Keeps.bind (fewer_write fun _ => rfl) fun _ =>
    Keeps.bind (fewer_write fun _ => rfl) fun _ => fewer_write fun _ => rfl
  refine keeps_kvWrite RowFrame.tick fun kv id x hx => ?_
  rw [SortedMap.get_erase] at hx
  split_ifs at hx
  exact hx

theorem fewer_sweepSubscriptions (rs : List SubscriptionRecord) :
    Keeps Fewer (SubscriptionStore.sweepRecords nowMs rs) := by
  induction rs with
  | nil => exact Keeps.pure _
  | cons r rs ih =>
    refine Keeps.ite (fun _ => ?_) fun _ => ih
    exact Keeps.bind (fewer_deleteSubscription r.name) fun _ => Keeps.bind ih fun _ => Keeps.pure _

theorem fewer_deleteSnapshot (name : String) : Keeps Fewer (SnapshotStore.delete name) := by
  refine Keeps.bind Keeps.estateGet fun kv => Keeps.bind (Keeps.liftResult _) fun id => ?_
  exact Keeps.bind (fewer_write fun _ => rfl) fun _ => fewer_write fun _ => rfl

theorem fewer_sweepSnapshots (rs : List SnapshotRecord) :
    Keeps Fewer (SnapshotStore.sweepRecords nowMs rs) := by
  induction rs with
  | nil => exact Keeps.pure _
  | cons r rs ih =>
    refine Keeps.ite (fun _ => ?_) fun _ => ih
    exact Keeps.bind (fewer_deleteSnapshot r.name) fun _ => Keeps.bind ih fun _ => Keeps.pure _

theorem fewer_loadCursor (subId : Nat) : Keeps (OnStore Fewer) (loadCursor subId) := by
  refine Keeps.bind Keeps.get fun s => ?_
  cases s.kv.cursors.get subId with
  | none => exact Keeps.throw _
  | some c => exact Keeps.pure _

theorem fewer_restoreCursor (subId : Nat) (c : CursorRecord) :
    Keeps (OnStore Fewer) (restoreCursor subId c) := by
  refine Keeps.bind Keeps.get fun s => Keeps.bind (keeps_memory fun _ => rfl) fun _ => ?_
  refine Keeps.bind (keeps_onStore (keeps_deleteDlvAll _ _)) fun _ => Keeps.bind Keeps.get fun _ => ?_
  refine Keeps.bind (keeps_onStore (keeps_deleteDlvAll _ _)) fun _ => ?_
  exact keeps_onStore (fewer_write fun _ => rfl)

/-- The calls that write no subscription record, or delete some. -/
def Op.writesNoRecord : Op → Bool
  | .createSubscription .. => false
  | .updateSubscription .. => false
  | .detachSubscription .. => false
  | .modifyPushConfig .. => false
  | .deleteTopic .. => false
  | op => !op.touches

theorem fewer_perform (h : op.writesNoRecord = true) : Keeps (OnStore Fewer) (perform nowMs op) := by
  cases op with
  | createTopic =>
    refine Keeps.bind (keeps_onStore ?_) fun _ => Keeps.pure _
    refine Keeps.bind (Keeps.liftResult _) fun _ => Keeps.bind Keeps.estateGet fun _ => ?_
    refine Keeps.ite (fun _ => Keeps.throw _) fun _ => Keeps.bind fewer_nextId fun _ => ?_
    refine Keeps.bind (fewer_write fun _ => rfl) fun _ => ?_
    exact Keeps.bind (fewer_write fun _ => rfl) fun _ => Keeps.pure _
  | updateTopic =>
    refine Keeps.bind (keeps_onStore ?_) fun _ => Keeps.pure _
    refine Keeps.bind Keeps.estateGet fun _ => Keeps.bind (Keeps.liftResult _) fun _ => ?_
    refine Keeps.bind (Keeps.liftResult _) fun _ => ?_
    exact Keeps.bind (fewer_write fun _ => rfl) fun _ => Keeps.pure _
  | publish => exact Keeps.bind (keeps_publish _ _ _) fun _ => Keeps.pure _
  | sweepSubscription =>
    refine Keeps.bind (Keeps.bind Keeps.get fun _ => ?_) fun _ => Keeps.pure _
    exact Keeps.bind (keeps_memory fun _ => rfl) fun _ => Keeps.pure _
  | sweepRetention =>
    refine Keeps.bind (Keeps.bind (keeps_onStore ?_) fun _ => ?_) fun _ => Keeps.pure _
    · exact Keeps.bind Keeps.get fun _ => keeps_sweepMessages _ _
    refine Keeps.bind (Keeps.ignore (keeps_onStore ?_)) fun _ => Keeps.pure _
    exact Keeps.bind Keeps.estateGet fun _ => fewer_sweepSubscriptions _
  | deleteSubscription =>
    exact Keeps.bind (keeps_onStore (fewer_deleteSubscription _)) fun _ => Keeps.pure _
  | openStream =>
    refine Keeps.bind (Keeps.bind (keeps_attached _) fun _ => ?_) fun _ => Keeps.pure _
    refine Keeps.bind (Keeps.bind Keeps.get fun _ => ?_) fun _ => Keeps.pure _
    exact Keeps.bind (keeps_memory fun _ => rfl) fun _ => Keeps.pure _
  | updateStream => exact Keeps.bind (keeps_memory fun _ => rfl) fun _ => Keeps.pure _
  | leaseForStream =>
    exact Keeps.bind Keeps.get fun _ => Keeps.bind (keeps_leaseForStream _ _) fun _ => Keeps.pure _
  | closeStream => exact Keeps.bind (keeps_onStreamClosed _) fun _ => Keeps.pure _
  | createSnapshot =>
    refine Keeps.bind (Keeps.bind Keeps.get fun _ => ?_) fun _ => Keeps.pure _
    refine Keeps.bind (Keeps.liftResult _) fun _ => Keeps.bind (fewer_loadCursor _) fun _ => ?_
    refine Keeps.bind (Keeps.bind (fewer_loadCursor _) fun _ => ?_) fun _ => ?_
    · exact Keeps.bind Keeps.get fun _ => Keeps.pure _
    refine Keeps.bind (Keeps.liftResult _) fun _ => keeps_onStore ?_
    refine Keeps.bind (Keeps.liftResult _) fun _ => Keeps.bind Keeps.estateGet fun _ => ?_
    refine Keeps.ite (fun _ => Keeps.throw _) fun _ => Keeps.bind fewer_nextId fun _ => ?_
    refine Keeps.bind (fewer_write fun _ => rfl) fun _ => ?_
    exact Keeps.bind (fewer_write fun _ => rfl) fun _ => Keeps.pure _
  | updateSnapshotLabels =>
    refine Keeps.bind (keeps_onStore ?_) fun _ => Keeps.pure _
    refine Keeps.bind Keeps.estateGet fun _ => Keeps.bind (Keeps.liftResult _) fun _ => ?_
    exact Keeps.bind (fewer_write fun _ => rfl) fun _ => Keeps.pure _
  | deleteSnapshot => exact Keeps.bind (keeps_onStore (fewer_deleteSnapshot _)) fun _ => Keeps.pure _
  | sweepExpiredSnapshots =>
    refine Keeps.bind (keeps_onStore (Keeps.bind Keeps.estateGet fun _ => ?_)) fun _ => Keeps.pure _
    exact Keeps.bind (Keeps.liftResult _) fun _ => fewer_sweepSnapshots _
  | seekToSnapshot =>
    refine Keeps.bind (Keeps.bind Keeps.get fun _ => ?_) fun _ => Keeps.pure _
    refine Keeps.bind (Keeps.liftResult _) fun _ => Keeps.bind (Keeps.liftResult _) fun _ => ?_
    exact Keeps.ite (fun _ => Keeps.throw _) fun _ => fewer_restoreCursor _ _
  | seekToTime =>
    refine Keeps.bind (Keeps.bind Keeps.get fun _ => ?_) fun _ => Keeps.pure _
    refine Keeps.bind (Keeps.liftResult _) fun _ => Keeps.bind (fewer_loadCursor _) fun _ => ?_
    exact fewer_restoreCursor _ _
  | restart => exact Keeps.bind (keeps_memory fun _ => rfl) fun _ => Keeps.pure _
  | _ => cases h

/-- The times as a call leaves them that touches nothing: a record keeps its own, and a new
one has the time of the call. -/
def TimesKept (nowMs : Int) (kv kv' : Kv) : Prop :=
  ∀ id r', kv'.subs.get id = some r' →
    (∃ r, kv.subs.get id = some r ∧ r'.lastActivityTsMs = r.lastActivityTsMs) ∨
      kv.counter < id ∧ r'.lastActivityTsMs = nowMs

theorem Fewer.timesKept {kv kv' : Kv} (h : Fewer kv kv') : TimesKept nowMs kv kv' :=
  fun id r' hr' => Or.inl ⟨r', h id r' hr', rfl⟩

theorem timesKept_refl {kv : Kv} : TimesKept nowMs kv kv := fun _ r hr => Or.inl ⟨r, hr, rfl⟩

theorem ensures_persist_times {kv : Kv} (hc : Consistent kv) (hh : kv.Healthy) {id : Nat}
    {r r' : SubscriptionRecord} (hr : kv.subs.get id = some r) (hkey : identity r' = identity r)
    (htime : r'.lastActivityTsMs = r.lastActivityTsMs) :
    Ensures (SubscriptionStore.persist r') kv (fun _ kv' => TimesKept nowMs kv kv')
      (fun _ kv' => TimesKept nowMs kv kv') := by
  simp only [SubscriptionStore.persist, putSub, putSubName, ensures_bind]
  refine (ensures_kvWrite_healthy hh).mpr ((ensures_kvWrite_healthy ?_).mpr fun i x hx => ?_)
  · exact fun n => hh n
  · have hx' : (kv.subs.insert r'.id r').get i = some x := hx
    rw [(persist_rows hc hr hkey).1] at hx'
    split_ifs at hx' with hi
    · cases hx'
      exact Or.inl ⟨r, hi ▸ hr, htime⟩
    · exact Or.inl ⟨x, hx', rfl⟩

theorem ensures_named_times {kv : Kv} (hc : Consistent kv) (hh : kv.Healthy) (name : String)
    {f : SubscriptionRecord → SubscriptionRecord} (hkey : ∀ r, identity (f r) = identity r)
    (htime : ∀ r, (f r).lastActivityTsMs = r.lastActivityTsMs) :
    Ensures (EStateM.get >>= fun kv => liftResult (SubscriptionStore.get kv name) >>=
      fun r => SubscriptionStore.persist (f r)) kv (fun _ kv' => TimesKept nowMs kv kv')
      (fun _ kv' => TimesKept nowMs kv kv') := by
  simp only [ensures_bind, ensures_estateGet, ensures_liftResult]
  refine ⟨fun r hr => ?_, fun _ _ => timesKept_refl⟩
  obtain ⟨id, _, hs⟩ := get_eq_ok hr
  exact ensures_persist_times hc hh hs (hkey r) (htime r)

theorem ensures_createSubscription_times {kv : Kv} (hh : kv.Healthy)
    (name topic : String) (opts : CreateSubscriptionOptions) (topicId attachSeq : Nat) :
    Ensures (SubscriptionStore.create name topic topicId attachSeq nowMs opts) kv
      (fun _ kv' => TimesKept nowMs kv kv') (fun _ kv' => TimesKept nowMs kv kv') := by
  simp only [SubscriptionStore.create, ensures_bind, ensures_liftResult, ensures_estateGet,
    ensures_ite, ensures_throw, nextId, ensures_get, putIdSeq, ensures_kvWrite_healthy hh,
    ensures_pure, SubscriptionStore.persist]
  refine ⟨fun n _ => ⟨fun _ => timesKept_refl, fun _ => ?_⟩, fun _ _ => timesKept_refl⟩
  refine (ensures_kvWrite_healthy ?_).mpr ((ensures_kvWrite_healthy ?_).mpr
    ((ensures_kvWrite_healthy ?_).mpr ((ensures_kvWrite_healthy ?_).mpr fun i x hx => ?_)))
  · exact fun n => hh n
  · exact fun n => hh n
  · exact fun n => hh n
  · exact fun n => hh n
  · have hx' : (kv.subs.insert (kv.counter + 1) (SubscriptionStore.newRecord name topic topicId
        nowMs opts n (kv.counter + 1))).get i = some x := hx
    rw [SortedMap.get_insert] at hx'
    split_ifs at hx' with hi
    · cases hx'
      exact Or.inr ⟨by omega, rfl⟩
    · exact Or.inl ⟨x, hx', rfl⟩

theorem ensures_untouched (hc : Consistent s.kv) (hh : s.kv.Healthy) (h : op.touches = false) :
    Ensures (perform nowMs op) s (fun _ t => TimesKept nowMs s.kv t.kv)
      (fun _ t => TimesKept nowMs s.kv t.kv) := by
  by_cases hrec : op.writesNoRecord = true
  · exact (fewer_perform hrec s).mono (fun _ _ h => Fewer.timesKept h)
      (fun _ _ h => Fewer.timesKept h)
  cases op with
  | createSubscription name topic opts =>
    simp only [perform, PubSubService.createSubscription, ensures_bind, ensures_onKv, ensures_get,
      ensures_liftResult, ensures_pure]
    refine ⟨fun t _ => ?_, fun _ _ => timesKept_refl⟩
    exact ensures_createSubscription_times hh name topic opts t.id _
  | updateSubscription name patch =>
    simp only [perform, PubSubService.updateSubscription, SubscriptionStore.update, ensures_bind,
      ensures_onKv, ensures_estateGet, ensures_liftResult, ensures_pure]
    refine ⟨fun r hr => ⟨fun _ _ => ?_, fun _ _ => timesKept_refl⟩, fun _ _ => timesKept_refl⟩
    obtain ⟨id, _, hs⟩ := get_eq_ok hr
    exact ensures_persist_times hc hh hs rfl rfl
  | detachSubscription name =>
    simp only [perform, PubSubService.detachSubscription, ensures_bind, ensures_onKv, ensures_pure]
    exact ensures_named_times hc hh name (f := fun r => { r with detached := true }) (fun _ => rfl)
      fun _ => rfl
  | modifyPushConfig name pushConfig =>
    simp only [perform, PubSubService.modifyPushConfig, ensures_bind, ensures_onKv, ensures_pure]
    exact ensures_named_times hc hh name (f := fun r => { r with pushConfig := pushConfig })
      (fun _ => rfl) fun _ => rfl
  | deleteTopic name =>
    rw [perform, ensures_bind, PubSubService.deleteTopic, ensures_onKv]
    refine (ensures_deleteTopic name hc hh).mono (fun _ kv' h => ?_) (fun _ kv' h => ?_)
    · obtain ⟨t, _, _, hdrop⟩ := h
      intro id r' hr'
      rw [hdrop.marked] at hr'
      obtain ⟨r, hr, rfl⟩ := Option.map_eq_some_iff.mp hr'
      refine Or.inl ⟨r, hr, ?_⟩
      split_ifs <;> rfl
    · rw [h]
      exact timesKept_refl
  | _ => first | exact absurd rfl hrec | cases h

end Steps

section Runs

/-- A consumer's call on a subscription that is there. -/
def Active (tr : Transition) (id : Nat) : Prop :=
  activeOn tr.pre tr.input.op = some id ∧ (tr.pre.kv.subs.get id).isSome

/-- The call ends with a touch and does not fail. -/
def Recorded (tr : Transition) : Prop := tr.input.op.touches = true ∧ ∀ e, tr.reply ≠ .failed e

/-- The transitions that set the time of the record. -/
def Dates (tr : Transition) (id : Nat) : Prop :=
  Active tr id ∧ Recorded tr ∨ tr.pre.kv.subs.get id = none ∧ (tr.post.kv.subs.get id).isSome

variable {s : Engine} {i : Input} {id : Nat} {r' : SubscriptionRecord}

theorem step_times (hc : Consistent s.kv) (hh : s.kv.Healthy)
    (hr' : (step s i).2.kv.subs.get id = some r') :
    (∃ r, s.kv.subs.get id = some r ∧
      (Dates (Run.transition step s i) id ∧ r'.lastActivityTsMs = i.nowMs ∨
        ¬ Dates (Run.transition step s i) id ∧ r'.lastActivityTsMs = r.lastActivityTsMs)) ∨
      s.kv.counter < id ∧ r'.lastActivityTsMs = i.nowMs := by
  cases htouch : i.op.touches with
  | false =>
    have hkept : TimesKept i.nowMs s.kv (step s i).2.kv :=
      ensures_step (ensures_untouched hc hh htouch)
    refine (hkept id r' hr').imp_left fun ⟨r, hr, htime⟩ => ⟨r, hr, Or.inr ⟨?_, htime⟩⟩
    rintro (⟨_, hrec⟩ | ⟨hnone, _⟩)
    · have hop : i.op.touches = true := hrec.1
      rw [htouch] at hop
      cases hop
    · have hpre : s.kv.subs.get id = none := hnone
      rw [hr] at hpre
      cases hpre
  | true =>
    have hrun := @ensures_touching s i.nowMs i.op hc hh htouch
    refine Or.inl ?_
    cases hp : perform i.nowMs i.op s with
    | error e t =>
      have hstep : step s i = (.failed e, t) := by rw [step, hp]
      rw [hstep, hrun.of_error hp] at hr'
      refine ⟨r', hr', Or.inr ⟨?_, rfl⟩⟩
      rintro (⟨_, hrec⟩ | ⟨hnone, _⟩)
      · refine hrec.2 e ?_
        change (step s i).1 = _
        rw [hstep]
      · have hpre : s.kv.subs.get id = none := hnone
        rw [hr'] at hpre
        cases hpre
    | ok reply t =>
      have hstep : step s i = (reply, t) := by rw [step, hp]
      obtain ⟨hreply, subId, hactive, hat⟩ := hrun.of_ok hp
      rw [hstep, hat id] at hr'
      split_ifs at hr' with hid
      · obtain ⟨r, hr, rfl⟩ := Option.map_eq_some_iff.mp hr'
        refine ⟨r, hr, Or.inl ⟨Or.inl ⟨⟨hid ▸ hactive, ?_⟩, htouch, ?_⟩, rfl⟩⟩
        · change (s.kv.subs.get id).isSome
          rw [hr]
          rfl
        · intro e he
          change (step s i).1 = _ at he
          rw [hstep] at he
          exact hreply e he
      · refine ⟨r', hr', Or.inr ⟨?_, rfl⟩⟩
        rintro (⟨⟨hact, _⟩, _⟩ | ⟨hnone, _⟩)
        · have hact' : activeOn s i.op = some id := hact
          rw [hactive, Option.some.injEq] at hact'
          exact hid hact'.symm
        · have hpre : s.kv.subs.get id = none := hnone
          rw [hr'] at hpre
          cases hpre

/-- The time of every record is that of the last transition that dated it. -/
structure ActivityDated (trs : List Transition) (s : Engine) : Prop where
  consistent : Consistent s.kv
  healthy : s.kv.Healthy
  known : ∀ tr ∈ trs, ∀ id, Dates tr id → id ≤ s.kv.counter
  dates : ∀ {id r}, s.kv.subs.get id = some r →
    (∀ tr ∈ trs, Dates tr id → tr.input.nowMs ≤ r.lastActivityTsMs) ∧
      ∃ tr ∈ trs, Dates tr id ∧ tr.input.nowMs = r.lastActivityTsMs

theorem activityDated_step {trs : List Transition} (h : ActivityDated trs s)
    (hclock : ∀ tr ∈ trs, tr.input.nowMs ≤ i.nowMs) :
    ActivityDated (trs ++ [Run.transition step s i]) (step s i).2 := by
  have hev := (step_path i h.consistent h.healthy).evolves h.consistent
  have hlast : ∀ {P : Transition → Prop}, (∀ tr ∈ trs, P tr) → P (Run.transition step s i) →
      ∀ tr ∈ trs ++ [Run.transition step s i], P tr := by
    intro P hold hnew tr htr
    rcases List.mem_append.mp htr with htr | htr
    · exact hold tr htr
    · rw [List.mem_singleton.mp htr]
      exact hnew
  have hmem : Run.transition step s i ∈ trs ++ [Run.transition step s i] :=
    List.mem_append_right _ (List.mem_singleton_self _)
  refine ⟨hev.consistent, hev.healthy h.healthy, hlast (fun tr htr id hd => ?_) fun id hd => ?_,
    fun {id r'} hr' => ?_⟩
  · exact (h.known tr htr id hd).trans hev.counter
  · rcases hd with ⟨⟨_, hpre⟩, _⟩ | ⟨_, hpost⟩
    · exact (h.consistent.sub_known hpre).trans hev.counter
    · exact hev.consistent.sub_known hpost
  · rcases step_times h.consistent h.healthy hr' with ⟨r, hr, hcase⟩ | ⟨hnew, htime⟩
    · obtain ⟨hle, tr₀, htr₀, hd₀, heq⟩ := h.dates hr
      rcases hcase with ⟨hd, htime⟩ | ⟨hnot, htime⟩
      · refine ⟨hlast (fun tr htr _ => ?_) fun _ => ?_, _, hmem, hd, htime.symm⟩
        · rw [htime]
          exact hclock tr htr
        · exact htime.ge
      · rw [htime]
        refine ⟨hlast hle fun hd => absurd hd hnot, tr₀, List.mem_append_left _ htr₀, hd₀, heq⟩
    · have hpre : s.kv.subs.get id = none := by
        cases hr : s.kv.subs.get id with
        | none => rfl
        | some r =>
          have hsome : (s.kv.subs.get id).isSome := by rw [hr]; rfl
          have := h.consistent.sub_known hsome
          omega
      have hd : Dates (Run.transition step s i) id := by
        refine Or.inr ⟨hpre, ?_⟩
        change ((step s i).2.kv.subs.get id).isSome
        rw [hr']
        rfl
      refine ⟨hlast (fun tr htr hd' => ?_) fun _ => htime.ge, _, hmem, hd, htime.symm⟩
      have := h.known tr htr id hd'
      omega

/-- The clock of a run never goes back. -/
def ClockForward (is : List Input) : Prop := (is.map Input.nowMs).Pairwise (· ≤ ·)

theorem activityDated_final {is : List Input} (hclock : ClockForward is) :
    ActivityDated (history is) (Run.final step start is) := by
  refine Run.history_inv (C := fun trs tr => ∀ x ∈ trs, x.input.nowMs ≤ tr.input.nowMs)
    (P := fun trs s => ActivityDated trs s) (fun trs s i hd hc => activityDated_step hd hc)
    ⟨consistent_empty, fun _ => rfl, fun _ h => (by cases h), fun h => (by cases h)⟩ fun l tr l' hl x hx => ?_
  have htimes : (history is).Pairwise fun a b => a.input.nowMs ≤ b.input.nowMs := by
    have hmap : (history is).map Run.Transition.input = is := Run.map_input_trace start is
    rw [ClockForward, ← hmap, List.pairwise_map, List.pairwise_map] at hclock
    exact hclock
  rw [history, hl, List.pairwise_append] at htimes
  exact htimes.2.2 x hx tr List.mem_cons_self

end Runs

section Sweep

variable {kv : Kv}

theorem ensures_delete_exact (hc : Consistent kv) (hh : kv.Healthy) {r : SubscriptionRecord}
    (hr : kv.subs.get r.id = some r) :
    Ensures (SubscriptionStore.delete r.name) kv
      (fun _ kv' => Consistent kv' ∧ kv'.Healthy ∧ kv'.subs = kv.subs.erase r.id)
      (fun _ _ => False) := by
  simp only [SubscriptionStore.delete, ensures_bind, ensures_estateGet, ensures_liftResult,
    hc.get_name hr,
    deleteSubRow, deleteSubName, deleteCursor, deleteIdx]
  refine ⟨fun x hx => ?_, fun _ he => by cases he⟩
  cases hx
  refine (ensures_kvWrite_healthy hh).mpr ((ensures_kvWrite_healthy ?_).mpr
    ((ensures_kvWrite_healthy ?_).mpr ((ensures_kvWrite_healthy ?_).mpr ?_)))
  · exact fun n => hh n
  · exact fun n => hh n
  · exact fun n => hh n
  · have hev := evolves_deleteSubscription hc hr (kv.writes + 4)
    exact ⟨hev.consistent, hev.healthy hh, rfl⟩

theorem ensures_sweepRecords_exact {nowMs : Int} (rs : List SubscriptionRecord) (hc : Consistent kv)
    (hh : kv.Healthy) (hrs : ∀ r ∈ rs, kv.subs.get r.id = some r)
    (hids : rs.Pairwise fun r r' => r.id ≠ r'.id) :
    Ensures (SubscriptionStore.sweepRecords nowMs rs) kv
      (fun _ kv' => (∀ r ∈ rs, SubscriptionStore.isExpired r nowMs = true →
          kv'.subs.get r.id = none) ∧
        ∀ id, (∀ r ∈ rs, r.id = id → SubscriptionStore.isExpired r nowMs = false) →
          kv'.subs.get id = kv.subs.get id)
      (fun _ _ => False) := by
  induction rs generalizing kv with
  | nil => exact ⟨fun _ h => (by cases h), fun _ _ => rfl⟩
  | cons r rs ih =>
    obtain ⟨hne, hids⟩ := List.pairwise_cons.mp hids
    have hrest : ∀ x ∈ rs, kv.subs.get x.id = some x := fun x hx => hrs x (List.mem_cons_of_mem _ hx)
    rw [SubscriptionStore.sweepRecords, ensures_ite]
    refine ⟨fun hexp => ?_, fun hlive => ?_⟩
    · simp only [ensures_bind, ensures_pure]
      refine (ensures_delete_exact hc hh (hrs r List.mem_cons_self)).mono (fun _ kv₁ h => ?_)
        (fun _ _ h => h)
      obtain ⟨hc₁, hh₁, hsubs⟩ := h
      have hother : ∀ id, id ≠ r.id → kv₁.subs.get id = kv.subs.get id := fun id hid => by
        rw [hsubs, SortedMap.get_erase_ne _ hid]
      have hrs₁ : ∀ x ∈ rs, kv₁.subs.get x.id = some x := fun x hx =>
        (hother x.id (hne x hx).symm).trans (hrest x hx)
      refine (ih hc₁ hh₁ hrs₁ hids).mono (fun _ kv' h => ⟨fun x hx hx' => ?_, fun id hid => ?_⟩)
        (fun _ _ h => h)
      · rcases List.mem_cons.mp hx with rfl | hx
        · rw [h.2 x.id fun y hy hyx => absurd hyx.symm (hne y hy), hsubs]
          exact SortedMap.get_erase_self ..
        · exact h.1 x hx hx'
      · have hidr : id ≠ r.id := fun he => by
          have := hid r List.mem_cons_self he.symm
          rw [hexp] at this
          cases this
        exact (h.2 id fun x hx => hid x (List.mem_cons_of_mem _ hx)).trans (hother id hidr)
    · refine (ih hc hh hrest hids).mono (fun _ kv' h => ⟨fun x hx hx' => ?_, fun id hid => ?_⟩)
        (fun _ _ h => h)
      · rcases List.mem_cons.mp hx with rfl | hx
        · exact absurd hx' hlive
        · exact h.1 x hx hx'
      · exact h.2 id fun x hx => hid x (List.mem_cons_of_mem _ hx)

/-- The rows after `sweep_expired`. -/
def sweptSubs (nowMs : Int) (kv : Kv) : Kv :=
  match SubscriptionStore.sweepExpired nowMs kv with
  | .ok _ kv' => kv'
  | .error _ kv' => kv'

theorem sweptSubs_get (hc : Consistent kv) (hh : kv.Healthy) (nowMs : Int) {id : Nat}
    {r : SubscriptionRecord} (hr : kv.subs.get id = some r) :
    (sweptSubs nowMs kv).subs.get id =
      if SubscriptionStore.isExpired r nowMs then none else some r := by
  obtain ⟨hname, hid⟩ := hc.subs.record hr
  have hmem : ∀ x ∈ SubscriptionStore.listAll kv, kv.subs.get x.id = some x := by
    intro x hx
    obtain ⟨⟨id', _⟩, he, rfl⟩ := List.mem_map.mp hx
    have hx' := SortedMap.mem_entries.mp he
    rw [(hc.subs.record hx').2]
    exact hx'
  have hids : (SubscriptionStore.listAll kv).Pairwise fun r r' => r.id ≠ r'.id := by
    refine List.pairwise_map.mpr (kv.subs.sorted.imp_of_mem fun {a b} ha hb hab => ?_)
    rw [(hc.subs.record (SortedMap.mem_entries.mp ha)).2,
      (hc.subs.record (SortedMap.mem_entries.mp hb)).2]
    exact hab.ne
  have hlist : r ∈ SubscriptionStore.listAll kv :=
    List.mem_map.mpr ⟨(id, r), SortedMap.mem_entries.mpr hr, rfl⟩
  have hsweep : Ensures (SubscriptionStore.sweepExpired nowMs) kv
      (fun _ kv' => kv'.subs.get id =
        if SubscriptionStore.isExpired r nowMs then none else some r) (fun _ _ => False) := by
    simp only [SubscriptionStore.sweepExpired, ensures_bind, ensures_estateGet]
    refine (ensures_sweepRecords_exact _ hc hh hmem hids).mono (fun _ kv' h => ?_) (fun _ _ h => h)
    split_ifs with hexp
    · rw [← hid]
      exact h.1 r hlist hexp
    · refine (h.2 id fun x hx hxid => ?_).trans hr
      have hxr := hmem x hx
      rw [hxid, hr, Option.some.injEq] at hxr
      rw [← hxr]
      simpa using hexp
  unfold sweptSubs
  cases hrun : SubscriptionStore.sweepExpired nowMs kv with
  | ok names kv' => exact hsweep.of_ok hrun
  | error e kv' => exact (hsweep.of_error hrun).elim

end Sweep

section Expiry

variable {nowMs : Int}

/-- The time at which the record expires does not saturate, or the clock is not there yet. -/
def NotSaturated (r : SubscriptionRecord) (ttlSecs nowMs : Int) : Prop :=
  satAddI64 r.lastActivityTsMs (satMulI64 ttlSecs 1000) < r.lastActivityTsMs + ttlSecs * 1000 →
    nowMs < satAddI64 r.lastActivityTsMs (satMulI64 ttlSecs 1000)

theorem isExpired_iff {r : SubscriptionRecord} {ttlSecs : Int}
    (hr : r.expirationTtlSecs = some ttlSecs) (hrange : i64Min ≤ nowMs)
    (hlast : r.lastActivityTsMs ≤ nowMs) (hsat : NotSaturated r ttlSecs nowMs) :
    SubscriptionStore.isExpired r nowMs = true ↔
      r.lastActivityTsMs + ttlSecs * 1000 ≤ nowMs := by
  unfold NotSaturated satAddI64 satMulI64 satI64 at hsat
  rw [SubscriptionStore.isExpired, hr, decide_eq_true_iff]
  simp only [satAddI64, satMulI64, satI64]
  have hmin : i64Min = -9223372036854775808 := rfl
  have hmax : i64Max = 9223372036854775807 := rfl
  omega

/-- The sweep deletes no subscription with a late call on it, exactly if every late call that
is not recorded has a late one beside it that is. -/
theorem idle_expiry_iff (is : List Input) (nowMs : Int) (hclock : ClockForward is)
    (hnow : ∀ i ∈ is, i.nowMs ≤ nowMs) (hrange : i64Min ≤ nowMs) {id : Nat}
    {r : SubscriptionRecord} (hr : (Run.final step start is).kv.subs.get id = some r) :
    let kv := (Run.final step start is).kv
    (r.expirationTtlSecs = none → (sweptSubs nowMs kv).subs.get id = some r) ∧
    ∀ ttlSecs, r.expirationTtlSecs = some ttlSecs → NotSaturated r ttlSecs nowMs →
      (((sweptSubs nowMs kv).subs.get id = none → ∀ tr ∈ history is, Active tr id →
          tr.input.nowMs ≤ nowMs - ttlSecs * 1000) ↔
        ∀ tr ∈ history is, Active tr id → nowMs - ttlSecs * 1000 < tr.input.nowMs →
          ¬ Recorded tr → ∃ tr' ∈ history is, Dates tr' id ∧
            nowMs - ttlSecs * 1000 < tr'.input.nowMs) := by
  intro kv
  have hdated := activityDated_final hclock
  obtain ⟨hle, tr₀, htr₀, hd₀, heq₀⟩ := hdated.dates hr
  have hswept := sweptSubs_get hdated.consistent hdated.healthy nowMs hr
  refine ⟨fun hnone => ?_, fun ttlSecs hsome hsat => ?_⟩
  · have hlive : SubscriptionStore.isExpired r nowMs = false := by
      rw [SubscriptionStore.isExpired, hnone]
    rw [hswept, hlive]
    rfl
  have hlast : r.lastActivityTsMs ≤ nowMs := by
    rw [← heq₀]
    refine hnow _ ?_
    have hmap : (history is).map Run.Transition.input = is := Run.map_input_trace start is
    rw [← hmap]
    exact List.mem_map_of_mem htr₀
  have hexp := isExpired_iff hsome hrange hlast hsat
  have hgone : (sweptSubs nowMs kv).subs.get id = none ↔
      r.lastActivityTsMs + ttlSecs * 1000 ≤ nowMs := by
    rw [hswept, ← hexp]
    split_ifs with h <;> simp [h]
  rw [hgone]
  constructor
  · intro h tr htr hact hlate _
    refine ⟨tr₀, htr₀, hd₀, ?_⟩
    by_contra hearly
    have := h (by omega) tr htr hact
    omega
  · intro h hidle tr htr hact
    by_contra hlate
    by_cases hrec : Recorded tr
    · have := hle tr htr (Or.inl ⟨hact, hrec⟩)
      omega
    · obtain ⟨tr', htr', hd', hlate'⟩ := h tr htr hact (by omega) hrec
      have := hle tr' htr' hd'
      omega

/-- A stream on `subA`, which is leased to at the given time. -/
def streamedAt (nowMs : Int) : List Input :=
  setup {} ++ [⟨0, .openStream "projects/p/subscriptions/subA" 10 0 0⟩, ⟨nowMs, .leaseForStream 1⟩]

theorem clockForward_streamedAt (h : 0 ≤ nowMs) : ClockForward (streamedAt nowMs) := by
  simp [ClockForward, streamedAt, setup, h]

/-- Nothing is late when the time to live of 31 days is over. -/
theorem idle_expiry_iff_idle :
    (sweptSubs 2678400000 (Run.final step start (streamedAt 0)).kv).subs.get 2 = none ∧
      ∀ tr ∈ history (streamedAt 0), Active tr 2 → tr.input.nowMs ≤ 0 := by
  have hfirst : ((Run.final step start (streamedAt 0)).kv.subs.get 2).any
      (fun r => decide (r.expirationTtlSecs = some 2678400 ∧ r.lastActivityTsMs = 0)) = true := by
    decide +kernel
  have hclock := @clockForward_streamedAt 0 le_rfl
  have hnow : ∀ i ∈ streamedAt 0, i.nowMs ≤ 2678400000 := by
    unfold streamedAt setup
    decide
  have hiff := @idle_expiry_iff (streamedAt 0) 2678400000 hclock hnow (by decide) 2
  have hdated := activityDated_final hclock
  have htimes : ∀ tr ∈ history (streamedAt 0), tr.input.nowMs = 0 := by
    refine Run.forall_trace_of_inputs fun i hi s => ?_
    have hzero : ∀ i ∈ streamedAt 0, i.nowMs = 0 := by
      unfold streamedAt setup
      decide
    exact hzero i hi
  generalize Run.final step start (streamedAt 0) = s at hfirst hiff hdated ⊢
  cases hr : s.kv.subs.get 2 with
  | none =>
    rw [hr] at hfirst
    cases hfirst
  | some r =>
    simp only [hr, Option.any_some, decide_eq_true_eq] at hfirst
    obtain ⟨httl, hlast⟩ := hfirst
    have hsat : NotSaturated r 2678400 2678400000 := by
      intro h
      rw [hlast] at h
      exact absurd h (by decide)
    have hexp : SubscriptionStore.isExpired r 2678400000 = true := by
      refine (isExpired_iff httl (by decide) (by omega) hsat).mpr ?_
      omega
    have hgone : (sweptSubs 2678400000 s.kv).subs.get 2 = none := by
      rw [sweptSubs_get hdated.consistent hdated.healthy _ hr, if_pos hexp]
    refine ⟨hgone, ((hiff hr).2 2678400 httl hsat).mpr (fun tr htr _ hlate _ => ?_) hgone⟩
    have := htimes tr htr
    omega

/-- A stream that is leased to a millisecond before the sweep does not keep its subscription. -/
theorem expires_while_streaming :
    ¬ ∀ (is : List Input) (nowMs : Int), ClockForward is → (∀ i ∈ is, i.nowMs ≤ nowMs) →
      ∀ id r ttlSecs, (Run.final step start is).kv.subs.get id = some r →
        r.expirationTtlSecs = some ttlSecs →
        (sweptSubs nowMs (Run.final step start is).kv).subs.get id = none →
        ∀ tr ∈ history is, Active tr id → tr.input.nowMs ≤ nowMs - ttlSecs * 1000 := by
  intro h
  have hrecord : ((Run.final step start (streamedAt 2678399999)).kv.subs.get 2).any
      (fun r => decide (r.expirationTtlSecs = some 2678400)) = true := by
    decide +kernel
  have hgone : (sweptSubs 2678400000 (Run.final step start (streamedAt 2678399999)).kv).subs.get 2 =
      none := by
    rw [← Option.isNone_iff_eq_none]
    decide +kernel
  have hlease : streamedAt 2678399999 =
      (setup {} ++ [⟨0, .openStream "projects/p/subscriptions/subA" 10 0 0⟩]) ++
        [⟨2678399999, .leaseForStream 1⟩] := rfl
  have hmem := @Run.mem_trace_append _ _ _ step start
    (setup {} ++ [⟨0, .openStream "projects/p/subscriptions/subA" 10 0 0⟩])
    ⟨2678399999, .leaseForStream 1⟩
  rw [← hlease] at hmem
  have hactive : Active (Run.transition step (Run.final step start
      (setup {} ++ [⟨0, .openStream "projects/p/subscriptions/subA" 10 0 0⟩]))
      ⟨2678399999, .leaseForStream 1⟩) 2 := by
    constructor <;> decide +kernel
  have hnow : ∀ i ∈ streamedAt 2678399999, i.nowMs ≤ 2678400000 := by
    unfold streamedAt setup
    decide
  have hidle := h (streamedAt 2678399999) 2678400000 (clockForward_streamedAt (by decide)) hnow 2
  generalize Run.final step start (streamedAt 2678399999) = s at hrecord hgone hidle
  cases hr : s.kv.subs.get 2 with
  | none =>
    rw [hr] at hrecord
    cases hrecord
  | some r =>
    simp only [hr, Option.any_some, decide_eq_true_eq] at hrecord
    have := hidle r 2678400 hr hrecord hgone _ hmem hactive
    exact absurd this (by decide)

end Expiry

end OpenPubusb
