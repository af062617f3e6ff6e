import OpenPubusb.Service

/-! The rows that delivery depends on, and the operations that leave them alone:
administrative operations only rewrite subscription records in place. -/

namespace OpenPubusb

open Hoare

/-- The last id handed out. -/
def Kv.counter (kv : Kv) : Nat := kv.idSeq.getD 0

structure Kv.WellFormed (kv : Kv) : Prop where
  record : ∀ {id : Nat} {r : SubscriptionRecord}, kv.subs.get id = some r →
    r.id = id ∧ id ≤ kv.counter
  cursor : ∀ {id : Nat} {c : CursorRecord}, kv.cursors.get id = some c → id ≤ kv.counter
  index : ∀ {topicId id : Nat} {u : Unit}, kv.idx.get ⟨topicId, id⟩ = some u →
    id ≤ kv.counter ∧ ∀ r, kv.subs.get id = some r → r.topicId = topicId
  log : ∀ {topicId seq : Nat} {m : MessageRecord}, kv.msg.get ⟨topicId, seq⟩ = some m →
    seq ≤ TopicStore.currentTail kv topicId

theorem Kv.wellFormed_empty : Kv.empty.WellFormed where
  record h := by cases h
  cursor h := by cases h
  index h := by cases h
  log h := by cases h

def Kv.tick (kv : Kv) : Kv := { kv with writes := kv.writes + 1 }

theorem keeps_kvWrite {R : Kv → Kv → Prop} [IsTrans Kv R] {f : Kv → Kv}
    (htick : ∀ kv, R kv kv.tick) (h : ∀ kv, R kv (f kv)) : Keeps R (kvWrite f) := by
  intro kv
  rw [ensures_kvWrite]
  exact ⟨fun _ => trans_of R (htick kv) (h kv.tick), fun _ => htick kv⟩

theorem Keeps.liftResult {σ α : Type} {R : σ → σ → Prop} [Std.Refl R] (r : Result α) :
    Keeps R (liftResult r : EStateM Error σ α) := by
  cases r with
  | ok a => exact Keeps.pure a
  | error e => exact Keeps.throw e

section Admin

variable {κ : Type}

/-- The part of a subscription record that no operation changes. -/
def identity (r : SubscriptionRecord) : Nat × String × Nat × String :=
  (r.id, r.name, r.topicId, r.filter)

def settings (r : SubscriptionRecord) :
    (Nat × String × Nat × String) × Option String × Int × Int × Int × Bool :=
  (identity r, r.deadLetterTopic, r.maxDeliveryAttempts, r.minRetryBackoffSecs,
    r.maxRetryBackoffSecs, r.retryPolicyExplicit)

class IdentityKey (key : SubscriptionRecord → κ) : Prop where
  identity_eq : ∀ {r r' : SubscriptionRecord}, key r' = key r → identity r' = identity r

instance : IdentityKey identity := ⟨id⟩

instance : IdentityKey settings := ⟨fun h => congrArg Prod.fst h⟩

/-- Only subscription records changed, each in place and outside of `key`. -/
structure Retouched (key : SubscriptionRecord → κ) (kv kv' : Kv) : Prop where
  ok : kv'.ok = kv.ok
  counter : kv.counter ≤ kv'.counter
  cursors : kv'.cursors = kv.cursors
  idx : kv'.idx = kv.idx
  dlv : kv'.dlv = kv.dlv
  msg : kv'.msg = kv.msg
  topicSeq : kv'.topicSeq = kv.topicSeq
  subs : ∀ id, (kv'.subs.get id).map key = (kv.subs.get id).map key

variable {key : SubscriptionRecord → κ} {kv kv' kv'' : Kv}

theorem Retouched.refl : Retouched key kv kv :=
  ⟨rfl, le_rfl, rfl, rfl, rfl, rfl, rfl, fun _ => rfl⟩

theorem Retouched.trans (h : Retouched key kv kv') (h' : Retouched key kv' kv'') :
    Retouched key kv kv'' where
  ok := h'.ok.trans h.ok
  counter := h.counter.trans h'.counter
  cursors := h'.cursors.trans h.cursors
  idx := h'.idx.trans h.idx
  dlv := h'.dlv.trans h.dlv
  msg := h'.msg.trans h.msg
  topicSeq := h'.topicSeq.trans h.topicSeq
  subs id := (h'.subs id).trans (h.subs id)

theorem Retouched.back [IdentityKey key] (h : Retouched key kv kv') {id : Nat}
    {r' : SubscriptionRecord} (hr : kv'.subs.get id = some r') :
    ∃ r, kv.subs.get id = some r ∧ key r' = key r ∧ identity r' = identity r := by
  have hk := h.subs id
  rw [hr, Option.map_some] at hk
  obtain ⟨r, hr', hkey⟩ := Option.map_eq_some_iff.mp hk.symm
  exact ⟨r, hr', hkey.symm, IdentityKey.identity_eq hkey.symm⟩

theorem Retouched.wellFormed [IdentityKey key] (h : Retouched key kv kv')
    (hwf : kv.WellFormed) : kv'.WellFormed where
  record {id r'} hr := by
    obtain ⟨r, hr', _, hid⟩ := h.back hr
    obtain ⟨he, hle⟩ := hwf.record hr'
    exact ⟨(congrArg Prod.fst hid).trans he, hle.trans h.counter⟩
  cursor hc := by
    rw [h.cursors] at hc
    exact (hwf.cursor hc).trans h.counter
  index {topicId id u} hi := by
    rw [h.idx] at hi
    refine ⟨(hwf.index hi).1.trans h.counter, fun r' hr => ?_⟩
    obtain ⟨r, hr', _, hid⟩ := h.back hr
    exact (congrArg (fun k => k.2.2.1) hid).trans ((hwf.index hi).2 r hr')
  log hm := by
    rw [h.msg] at hm
    have hl := hwf.log hm
    rw [TopicStore.currentTail] at hl ⊢
    rwa [h.topicSeq]

def Admin (key : SubscriptionRecord → κ) (kv kv' : Kv) : Prop :=
  kv.WellFormed → Retouched key kv kv'

instance : Std.Refl (Admin key) := ⟨fun _ _ => Retouched.refl⟩

instance [IdentityKey key] : IsTrans Kv (Admin key) :=
  ⟨fun _ _ _ h h' hwf => (h hwf).trans (h' ((h hwf).wellFormed hwf))⟩

theorem keeps_admin_write [IdentityKey key] {f : Kv → Kv}
    (h : ∀ kv, Retouched key kv (f kv)) : Keeps (Admin key) (kvWrite f) :=
  keeps_kvWrite (fun _ _ => ⟨rfl, le_rfl, rfl, rfl, rfl, rfl, rfl, fun _ => rfl⟩)
    (fun kv _ => h kv)

theorem keeps_nextId : Keeps (Admin key) nextId := by
  intro kv
  simp only [nextId, ensures_bind, ensures_get, putIdSeq, ensures_kvWrite, ensures_pure]
  refine ⟨fun _ _ => ?_, fun _ _ => ?_⟩
  · exact ⟨rfl, Nat.le_succ _, rfl, rfl, rfl, rfl, rfl, fun _ => rfl⟩
  · exact ⟨rfl, le_rfl, rfl, rfl, rfl, rfl, rfl, fun _ => rfl⟩

variable [IdentityKey key]

theorem ensures_persist (hwf : kv.WellFormed) {id : Nat} {r r' : SubscriptionRecord}
    (hr : kv.subs.get id = some r) (hkey : key r' = key r) :
    Ensures (SubscriptionStore.persist r') kv (fun _ kv' => Retouched key kv kv')
      (fun _ kv' => Retouched key kv kv') := by
  have hid : r'.id = id :=
    (congrArg Prod.fst (IdentityKey.identity_eq hkey)).trans (hwf.record hr).1
  have hsubs : ∀ i, ((kv.subs.insert r'.id r').get i).map key = (kv.subs.get i).map key := by
    intro i
    rw [SortedMap.get_insert]
    split_ifs with hi
    · rw [hi, hid, hr, Option.map_some, Option.map_some, hkey]
    · rfl
  have hsame : ∀ i, (kv.subs.get i).map key = (kv.subs.get i).map key := fun _ => rfl
  simp only [SubscriptionStore.persist, ensures_bind, putSub, putSubName, ensures_kvWrite]
  exact ⟨fun _ => ⟨fun _ => ⟨rfl, le_rfl, rfl, rfl, rfl, rfl, rfl, hsubs⟩,
    fun _ => ⟨rfl, le_rfl, rfl, rfl, rfl, rfl, rfl, hsubs⟩⟩,
    fun _ => ⟨rfl, le_rfl, rfl, rfl, rfl, rfl, rfl, hsame⟩⟩

theorem load_eq_ok {id : Nat} {what : String} {r : SubscriptionRecord}
    (h : SubscriptionStore.load kv id what = .ok r) : kv.subs.get id = some r := by
  unfold SubscriptionStore.load at h
  cases hs : kv.subs.get id with
  | none => rw [hs] at h; cases h
  | some r' => rw [hs] at h; cases h; rfl

theorem get_eq_ok {fullName : String} {r : SubscriptionRecord}
    (h : SubscriptionStore.get kv fullName = .ok r) :
    ∃ id, kv.subNames.get fullName = some id ∧ kv.subs.get id = some r := by
  unfold SubscriptionStore.get at h
  cases hn : kv.subNames.get fullName with
  | none => rw [hn] at h; cases h
  | some id =>
    rw [hn] at h
    exact ⟨id, rfl, load_eq_ok h⟩

/-- The shape shared by the operations that load a record, change it and write
it back. -/
theorem keeps_rewrite {load : Kv → Result SubscriptionRecord} {m : SubscriptionRecord → KvM Unit}
    {f : SubscriptionRecord → Result SubscriptionRecord}
    (hload : ∀ kv r, load kv = .ok r → ∃ id, kv.subs.get id = some r)
    (hf : ∀ r r', f r = .ok r' → key r' = key r)
    (hm : ∀ r, m r = liftResult (f r) >>= SubscriptionStore.persist) :
    Keeps (Admin key) (EStateM.get >>= fun kv => liftResult (load kv) >>= m) := by
  refine Keeps.of_pre fun kv hwf => ?_
  simp only [ensures_bind, ensures_estateGet, ensures_liftResult, hm]
  refine ⟨fun r hr => ⟨fun r' hr' => ?_, fun _ _ => Retouched.refl⟩, fun _ _ => Retouched.refl⟩
  obtain ⟨id, hs⟩ := hload kv r hr
  exact ensures_persist hwf hs (hf r r' hr')

theorem keeps_touch (subId : Nat) (nowMs : Int) :
    Keeps (Admin settings) (SubscriptionStore.touch subId nowMs) := by
  refine Keeps.of_pre fun kv hwf => ?_
  simp only [SubscriptionStore.touch, ensures_bind, ensures_estateGet]
  cases hl : SubscriptionStore.load kv subId s!"sub_id={subId}" with
  | error e => exact Retouched.refl
  | ok r => exact ensures_persist hwf (load_eq_ok hl) rfl

theorem keeps_setTopicToDeleted (subId : Nat) :
    Keeps (Admin settings) (SubscriptionStore.setTopicToDeleted subId) :=
  keeps_rewrite (f := fun r => .ok { r with topic := deletedTopic })
    (fun _ _ h => ⟨subId, load_eq_ok h⟩) (fun _ _ h => by cases h; rfl) (fun _ => rfl)

theorem keeps_detach (fullName : String) :
    Keeps (Admin settings) (SubscriptionStore.detach fullName) :=
  keeps_rewrite (f := fun r => .ok { r with detached := true })
    (fun _ _ h => (get_eq_ok h).imp fun _ => And.right) (fun _ _ h => by cases h; rfl)
    (fun _ => rfl)

theorem keeps_setPushConfig (fullName : String) (pushConfig : Option PushConfig) :
    Keeps (Admin settings) (SubscriptionStore.setPushConfig fullName pushConfig) :=
  keeps_rewrite (f := fun r => .ok { r with pushConfig := pushConfig })
    (fun _ _ h => (get_eq_ok h).imp fun _ => And.right) (fun _ _ h => by cases h; rfl)
    (fun _ => rfl)

theorem keeps_update (fullName : String) (patch : SubscriptionUpdatePatch) :
    Keeps (Admin identity) (SubscriptionStore.update fullName patch) := by
  refine Keeps.of_pre fun kv hwf => ?_
  simp only [SubscriptionStore.update, ensures_bind, ensures_estateGet, ensures_liftResult,
    ensures_pure]
  refine ⟨fun r hr => ⟨fun _ _ => ?_, fun _ _ => Retouched.refl⟩, fun _ _ => Retouched.refl⟩
  obtain ⟨id, _, hs⟩ := get_eq_ok hr
  exact ensures_persist hwf hs rfl

theorem keeps_createTopic (fullName : String) (labels : SortedMap String String)
    (messageRetentionSecs : Option Int) (kmsKeyName : Option String)
    (hasSchemaSettings hasIngestionSettings : Bool) :
    Keeps (Admin key) (TopicStore.create fullName labels messageRetentionSecs kmsKeyName
      hasSchemaSettings hasIngestionSettings) := by
  refine Keeps.bind (Keeps.liftResult _) fun _ => Keeps.bind Keeps.estateGet fun _ => ?_
  refine Keeps.ite (fun _ => Keeps.throw _) fun _ => ?_
  refine Keeps.bind keeps_nextId fun _ => ?_
  refine Keeps.bind (keeps_admin_write fun _ => ?_) fun _ => ?_
  · exact ⟨rfl, le_rfl, rfl, rfl, rfl, rfl, rfl, fun _ => rfl⟩
  refine Keeps.bind (keeps_admin_write fun _ => ?_) fun _ => Keeps.pure _
  exact ⟨rfl, le_rfl, rfl, rfl, rfl, rfl, rfl, fun _ => rfl⟩

theorem keeps_updateTopic (fullName : String) (labels : Option (SortedMap String String))
    (messageRetentionSecs : Option (Option Int)) (kmsKeyName : Option (Option String)) :
    Keeps (Admin key) (TopicStore.update fullName labels messageRetentionSecs kmsKeyName) := by
  refine Keeps.bind Keeps.estateGet fun _ => Keeps.bind (Keeps.liftResult _) fun _ => ?_
  refine Keeps.bind (Keeps.liftResult _) fun _ => ?_
  refine Keeps.bind (keeps_admin_write fun _ => ?_) fun _ => Keeps.pure _
  exact ⟨rfl, le_rfl, rfl, rfl, rfl, rfl, rfl, fun _ => rfl⟩

theorem keeps_deleteTopic (fullName : String) :
    Keeps (Admin key) (TopicStore.delete fullName) := by
  refine Keeps.bind Keeps.estateGet fun _ => Keeps.bind (Keeps.liftResult _) fun _ => ?_
  refine Keeps.bind (keeps_admin_write fun _ => ?_) fun _ => keeps_admin_write fun _ => ?_
  · exact ⟨rfl, le_rfl, rfl, rfl, rfl, rfl, rfl, fun _ => rfl⟩
  · exact ⟨rfl, le_rfl, rfl, rfl, rfl, rfl, rfl, fun _ => rfl⟩

theorem keeps_setTopicsToDeleted (subIds : List Nat) :
    Keeps (Admin settings) (PubSubService.setTopicsToDeleted subIds) := by
  induction subIds with
  | nil => exact Keeps.pure _
  | cons subId subIds ih => exact Keeps.bind (keeps_setTopicToDeleted subId) fun _ => ih

theorem keeps_createSnapshot (fullName topicFullName : String) (topicId : Nat)
    (labels : SortedMap String String) (cursor : CursorRecord) (expireAtMs : Int) :
    Keeps (Admin key) (SnapshotStore.create fullName topicFullName topicId labels cursor
      expireAtMs) := by
  refine Keeps.bind (Keeps.liftResult _) fun _ => Keeps.bind Keeps.estateGet fun _ => ?_
  refine Keeps.ite (fun _ => Keeps.throw _) fun _ => ?_
  refine Keeps.bind keeps_nextId fun _ => ?_
  refine Keeps.bind (keeps_admin_write fun _ => ?_) fun _ => ?_
  · exact ⟨rfl, le_rfl, rfl, rfl, rfl, rfl, rfl, fun _ => rfl⟩
  refine Keeps.bind (keeps_admin_write fun _ => ?_) fun _ => Keeps.pure _
  exact ⟨rfl, le_rfl, rfl, rfl, rfl, rfl, rfl, fun _ => rfl⟩

theorem keeps_updateSnapshotLabels (fullName : String) (labels : SortedMap String String) :
    Keeps (Admin key) (SnapshotStore.updateLabels fullName labels) := by
  refine Keeps.bind Keeps.estateGet fun _ => Keeps.bind (Keeps.liftResult _) fun _ => ?_
  refine Keeps.bind (keeps_admin_write fun _ => ?_) fun _ => Keeps.pure _
  exact ⟨rfl, le_rfl, rfl, rfl, rfl, rfl, rfl, fun _ => rfl⟩

theorem keeps_deleteSnapshot (fullName : String) :
    Keeps (Admin key) (SnapshotStore.delete fullName) := by
  refine Keeps.bind Keeps.estateGet fun _ => Keeps.bind (Keeps.liftResult _) fun _ => ?_
  refine Keeps.bind (keeps_admin_write fun _ => ?_) fun _ => keeps_admin_write fun _ => ?_
  · exact ⟨rfl, le_rfl, rfl, rfl, rfl, rfl, rfl, fun _ => rfl⟩
  · exact ⟨rfl, le_rfl, rfl, rfl, rfl, rfl, rfl, fun _ => rfl⟩

theorem keeps_sweepSnapshots (nowMs : Int) (rs : List SnapshotRecord) :
    Keeps (Admin key) (SnapshotStore.sweepRecords nowMs rs) := by
  induction rs with
  | nil => exact Keeps.pure _
  | cons r rs ih =>
    refine Keeps.ite (fun _ => ?_) fun _ => ih
    exact Keeps.bind (keeps_deleteSnapshot r.name) fun _ => Keeps.bind ih fun _ => Keeps.pure _

end Admin

end OpenPubusb
