import OpenPubusb.CatalogOps
import OpenPubusb.ConcurrentCreate
import OpenPubusb.Staged

/-! What a failed metadata call leaves in the store. Each of these calls is a chain of
writes without a batch or a rollback, so the first of them may stay alone. -/

namespace OpenPubusb

open Hoare

/-- The rows, however many writes it took. -/
def Kv.rows (kv : Kv) : Kv := { kv with writes := 0 }

/-- The last write was refused. -/
def Kv.LastRefused (kv : Kv) : Prop := ∃ n, kv.writes = n + 1 ∧ kv.ok n = false

abbrev RowWrite := Kv → Option Kv

def countId : RowWrite := fun kv => some { kv with idSeq := some (kv.counter + 1) }

def deletedTopicWrites (subId : Nat) : List RowWrite :=
  [fun kv => (kv.subs.get subId).map fun r =>
    { kv with subs := kv.subs.insert r.id { r with topic := deletedTopic } },
   fun kv => (kv.subs.get subId).map fun r => { kv with subNames := kv.subNames.insert r.name r.id }]

def topicWrites (r : TopicRecord) : List RowWrite :=
  [fun kv => some { kv with topics := kv.topics.insert r.id r },
   fun kv => some { kv with topicNames := kv.topicNames.insert r.name r.id }]

def snapshotWrites (r : SnapshotRecord) : List RowWrite :=
  [fun kv => some { kv with snaps := kv.snaps.insert r.id r },
   fun kv => some { kv with snapNames := kv.snapNames.insert r.name r.id }]

def persistWrites (r : SubscriptionRecord) : List RowWrite :=
  [fun kv => some { kv with subs := kv.subs.insert r.id r },
   fun kv => some { kv with subNames := kv.subNames.insert r.name r.id }]

def attachWrites (topicId subId attachSeq : Nat) : List RowWrite :=
  [fun kv => some { kv with cursors := kv.cursors.insert subId (.fresh attachSeq attachSeq) },
   fun kv => some { kv with idx := kv.idx.insert ⟨topicId, subId⟩ () }]

/-- The writes of a metadata call, in the order in which it makes them. -/
def rowWrites (s : Engine) (nowMs : Int) : Op → List RowWrite
  | .createTopic name labels retention kms _ _ =>
    countId :: topicWrites ⟨s.kv.counter + 1, name, labels, retention.getD 0, kms⟩
  | .createSubscription name topic opts =>
    match TopicStore.get s.kv topic, SubscriptionStore.checkOptions name topic opts with
    | .ok t, .ok attempts =>
      let id := s.kv.counter + 1
      let r := SubscriptionStore.newRecord name topic t.id nowMs opts attempts id
      countId :: (persistWrites r ++ attachWrites t.id id (TopicStore.currentTail s.kv t.id))
    | _, _ => []
  | .createSnapshot name subscription labels =>
    match SubscriptionStore.get s.kv subscription with
    | .error _ => []
    | .ok r =>
      match CreateOp.readCursor s.kv r.id with
      | .error _ => []
      | .ok c =>
        match computeExpireAtMs nowMs (CreateOp.oldestUnacked s.kv r.topicId c) with
        | .error _ => []
        | .ok expireAtMs =>
          countId ::
            snapshotWrites ⟨s.kv.counter + 1, name, r.topic, r.topicId, labels, c, expireAtMs⟩
  | .updateSubscription name patch =>
    match SubscriptionStore.get s.kv name with
    | .ok r => persistWrites (SubscriptionStore.patched r patch)
    | .error _ => []
  | .deleteSubscription name =>
    match SubscriptionStore.get s.kv name with
    | .ok r =>
      [fun kv => some { kv with subs := kv.subs.erase r.id },
       fun kv => some { kv with subNames := kv.subNames.erase r.name },
       fun kv => some { kv with cursors := kv.cursors.erase r.id },
       fun kv => some { kv with idx := kv.idx.erase ⟨r.topicId, r.id⟩ }]
    | .error _ => []
  | .deleteTopic name =>
    match TopicStore.resolveId s.kv name, TopicStore.get s.kv name with
    | .ok id, .ok t =>
      (SubscriptionStore.listByTopicId s.kv t.id).flatMap deletedTopicWrites ++
      ([fun kv => some { kv with topics := kv.topics.erase id },
        fun kv => some { kv with topicNames := kv.topicNames.erase name }] : List RowWrite)
    | _, _ => []
  | _ => []

section Stores

variable {kv : Kv} {ws : List RowWrite}

abbrev StagedRows {α : Type} (ws : List RowWrite) (m : KvM α) (kv : Kv) : Prop :=
  Staged Kv.LastRefused Kv.rows ws m kv

abbrev CheckedRows {α : Type} (ws : List RowWrite) (m : KvM α) (kv : Kv) : Prop :=
  Checked Kv.LastRefused Kv.rows ws m kv

theorem staged_kvWrite {f : Kv → Kv} {w : RowWrite}
    (hw : w kv.rows = some (f { kv with writes := kv.writes + 1 }).rows) :
    StagedRows [w] (kvWrite f) kv := by
  refine ensures_kvWrite.mpr ⟨fun _ => ?_, fun hok => ?_⟩
  · simp only [applyAll, hw, Option.bind_some]
  · exact ⟨0, Nat.zero_lt_one, rfl, Or.inl ⟨kv.writes, rfl, hok⟩⟩

theorem staged_persist (r : SubscriptionRecord) :
    StagedRows (persistWrites r) (SubscriptionStore.persist r) kv :=
  Staged.cons (staged_kvWrite rfl) fun _ _ => staged_kvWrite rfl

theorem checked_check {α β : Type} {r : Result α} {f : α → KvM β}
    (h : ∀ a, r = .ok a → CheckedRows ws (f a) kv) : CheckedRows ws (liftResult r >>= f) kv := by
  cases r with
  | error e => exact Or.inl rfl
  | ok a => exact h a rfl

theorem staged_nextId {α : Type} {f : Nat → KvM α} (h : ∀ t, StagedRows ws (f (kv.counter + 1)) t) :
    StagedRows (countId :: ws) (nextId >>= f) kv := by
  have hid : Ensures nextId kv (fun id _ => id = kv.counter + 1) (fun _ _ => True) := by
    simp only [nextId, putIdSeq, ensures_bind, ensures_get, ensures_kvWrite, ensures_pure]
    exact ⟨fun _ => rfl, fun _ => trivial⟩
  have hone : StagedRows [countId] nextId kv := Staged.bind_pure (staged_kvWrite rfl) fun _ => _
  refine hone.bind fun id t hr => ?_
  rw [hid.of_ok hr]
  exact h t

theorem checked_createTopic (name : String) (labels : SortedMap String String)
    (retention : Option Int) (kms : Option String) (schema ingestion : Bool) (s : Engine)
    (nowMs : Int) :
    CheckedRows (rowWrites s nowMs (.createTopic name labels retention kms schema ingestion))
      (TopicStore.create name labels retention kms schema ingestion) s.kv := by
  refine checked_check fun _ _ => ?_
  change CheckedRows _ (if (s.kv.topicNames.get name).isSome then _ else _ : KvM TopicRecord) s.kv
  split_ifs
  · exact Checked.throw _
  · refine Staged.checked (staged_nextId fun t => ?_)
    exact Staged.cons (staged_kvWrite rfl) fun _ _ =>
      Staged.bind_pure (staged_kvWrite rfl) fun _ => _

theorem checked_createSubscription (name topic : String) (opts : CreateSubscriptionOptions)
    (nowMs : Int) (s : Engine) :
    CheckedRows (rowWrites s nowMs (.createSubscription name topic opts)) (do
      let kv ← get
      let t ← liftResult (TopicStore.get kv topic)
      SubscriptionStore.create name topic t.id (TopicStore.currentTail kv t.id) nowMs opts)
      s.kv := by
  refine Checked.get (checked_check fun t ht => checked_check fun attempts hopts => ?_)
  change CheckedRows _ (if (s.kv.subNames.get name).isSome then _ else _ :
    KvM SubscriptionRecord) s.kv
  split_ifs
  · exact Checked.throw _
  · simp only [rowWrites, ht, hopts]
    refine Staged.checked (staged_nextId fun _ => ?_)
    exact Staged.bind (staged_persist _) fun _ _ _ => Staged.cons (staged_kvWrite rfl) fun _ _ =>
      Staged.bind_pure (staged_kvWrite rfl) fun _ => _

theorem checked_updateSubscription (name : String) (patch : SubscriptionUpdatePatch)
    (nowMs : Int) (s : Engine) :
    CheckedRows (rowWrites s nowMs (.updateSubscription name patch))
      (SubscriptionStore.update name patch) s.kv := by
  change CheckedRows _ (liftResult (SubscriptionStore.get s.kv name) >>= _) s.kv
  refine checked_check fun r hr => checked_check fun _ _ => ?_
  simp only [rowWrites, hr]
  exact (Staged.bind_pure (staged_persist _) fun _ => _).checked

theorem checked_deleteSubscription (name : String) (nowMs : Int) (s : Engine) :
    CheckedRows (rowWrites s nowMs (.deleteSubscription name)) (SubscriptionStore.delete name)
      s.kv := by
  change CheckedRows _ (liftResult (SubscriptionStore.get s.kv name) >>= _) s.kv
  refine checked_check fun r hr => ?_
  simp only [rowWrites, hr]
  refine Staged.checked (Staged.cons (staged_kvWrite rfl) fun _ _ => ?_)
  refine Staged.cons (staged_kvWrite rfl) fun _ _ => ?_
  exact Staged.cons (staged_kvWrite rfl) fun _ _ => staged_kvWrite rfl

theorem staged_setTopicToDeleted (subId : Nat) :
    StagedRows (deletedTopicWrites subId) (SubscriptionStore.setTopicToDeleted subId) kv := by
  change StagedRows _ (liftResult (SubscriptionStore.load kv subId s!"sub_id={subId}") >>= _) kv
  cases hr : kv.subs.get subId with
  | none =>
    have hload : SubscriptionStore.load kv subId s!"sub_id={subId}" =
        .error (.notFound s!"sub_id={subId}") := by
      rw [SubscriptionStore.load, hr]
    rw [hload]
    refine ⟨0, Nat.zero_lt_two, rfl, Or.inr ⟨_, rfl, ?_⟩⟩
    simp only [Kv.rows, hr, Option.map_none]
  | some r =>
    have hload : SubscriptionStore.load kv subId s!"sub_id={subId}" = .ok r := by
      rw [SubscriptionStore.load, hr]
    rw [hload]
    change StagedRows _ (SubscriptionStore.persist { r with topic := deletedTopic }) kv
    simp only [SubscriptionStore.persist, putSub, putSubName, Staged, ensures_bind, ensures_kvWrite]
    refine ⟨fun _ => ⟨fun _ => ?_, fun hok => ⟨1, Nat.one_lt_two, ?_, Or.inl ⟨_, rfl, hok⟩⟩⟩,
      fun hok => ⟨0, Nat.zero_lt_two, rfl, Or.inl ⟨_, rfl, hok⟩⟩⟩
    · simp only [deletedTopicWrites, applyAll, Kv.rows, hr, Option.map_some, Option.bind_some]
      -- the second write looks the record up again, after the first one has changed it
      rw [SortedMap.get_insert]
      split_ifs
      · rfl
      · rw [hr]
        rfl
    · simp only [deletedTopicWrites, List.take, applyAll, Kv.rows, hr, Option.map_some,
        Option.bind_some]

theorem staged_setTopicsToDeleted (subIds : List Nat) :
    StagedRows (subIds.flatMap deletedTopicWrites) (PubSubService.setTopicsToDeleted subIds) kv := by
  induction subIds generalizing kv with
  | nil => exact Staged.pure ()
  | cons subId subIds ih => exact (staged_setTopicToDeleted subId).bind fun _ _ _ => ih

theorem ensures_setTopicsToDeleted_names (subIds : List Nat) :
    Ensures (PubSubService.setTopicsToDeleted subIds) kv
      (fun _ t => t.topicNames = kv.topicNames) (fun _ _ => True) := by
  induction subIds generalizing kv with
  | nil => exact rfl
  | cons subId subIds ih =>
    simp only [PubSubService.setTopicsToDeleted, SubscriptionStore.setTopicToDeleted,
      SubscriptionStore.persist, putSub, putSubName, ensures_bind, ensures_estateGet,
      ensures_liftResult, ensures_kvWrite, implies_true, and_true]
    exact fun r _ _ _ => ih

theorem checked_deleteTopic (name : String) (nowMs : Int) (s : Engine) :
    CheckedRows (rowWrites s nowMs (.deleteTopic name)) (do
      let kv ← get
      let record ← liftResult (TopicStore.get kv name)
      PubSubService.setTopicsToDeleted (SubscriptionStore.listByTopicId kv record.id)
      TopicStore.delete name) s.kv := by
  refine Checked.get (checked_check fun t ht => ?_)
  obtain ⟨id, hid, _⟩ := topicGet_eq_ok ht
  simp only [rowWrites, ht, hid]
  refine ((staged_setTopicsToDeleted _).bind fun _ kv hr => ?_).checked
  change StagedRows _ (liftResult (TopicStore.resolveId kv name) >>= _) kv
  have hnames := (ensures_setTopicsToDeleted_names _).of_ok hr
  have hresolve : TopicStore.resolveId kv name = .ok id := by
    rw [← hid, TopicStore.resolveId, TopicStore.resolveId, hnames]
  rw [hresolve]
  change StagedRows _ (deleteTopicRow id >>= fun _ => deleteTopicName name) kv
  exact Staged.cons (staged_kvWrite rfl) fun _ _ => staged_kvWrite rfl

theorem checked_snapshotCreate (name topic : String) (topicId : Nat)
    (labels : SortedMap String String) (c : CursorRecord) (expireAtMs : Int) :
    CheckedRows
      (countId :: snapshotWrites ⟨kv.counter + 1, name, topic, topicId, labels, c, expireAtMs⟩)
      (SnapshotStore.create name topic topicId labels c expireAtMs) kv := by
  refine checked_check fun _ _ => ?_
  change CheckedRows _ (if (kv.snapNames.get name).isSome then _ else _ : KvM SnapshotRecord) kv
  split_ifs
  · exact Checked.throw _
  · refine Staged.checked (staged_nextId fun t => ?_)
    exact Staged.cons (staged_kvWrite rfl) fun _ _ =>
      Staged.bind_pure (staged_kvWrite rfl) fun _ => _

end Stores

section Calls

variable {s : Engine} {ws : List RowWrite}

/-- The same of a call of the service. -/
abbrev CheckedCall {α : Type} (ws : List RowWrite) (m : EngineM α) (s : Engine) : Prop :=
  Checked (fun t : Engine => t.kv.LastRefused) (fun t => t.kv.rows) ws m s

theorem CheckedRows.onKv {α : Type} {m : KvM α} (h : CheckedRows ws m s.kv) :
    CheckedCall ws (onKv m) s :=
  ensures_onKv.mpr h

theorem checkedCall_check {α β : Type} {r : Result α} {f : α → EngineM β}
    (h : ∀ a, r = .ok a → CheckedCall ws (f a) s) : CheckedCall ws (liftResult r >>= f) s := by
  cases r with
  | error e => exact Or.inl rfl
  | ok a => exact h a rfl

theorem checked_createSnapshot (name subscription : String) (labels : SortedMap String String)
    (nowMs : Int) :
    CheckedCall (rowWrites s nowMs (.createSnapshot name subscription labels))
      (PubSubService.createSnapshot name subscription labels nowMs) s := by
  change CheckedCall _ (liftResult (SubscriptionStore.get s.kv subscription) >>= _) s
  refine checkedCall_check fun r hr => ?_
  have hload : Ensures (loadCursor r.id) s
      (fun c t => CreateOp.readCursor s.kv r.id = .ok c ∧ t = s) (fun _ t => t = s) := by
    simp only [loadCursor, CreateOp.readCursor, ensures_bind, ensures_get]
    cases s.kv.cursors.get r.id with
    | none => exact rfl
    | some c => exact ⟨rfl, rfl⟩
  refine Checked.bind (hload.mono (fun _ t h => by rw [h.2]) (fun _ t h => by rw [h]))
    fun c t hc => ?_
  obtain ⟨hc, rfl⟩ := hload.of_ok hc
  have hold : Ensures (oldestUnackedPublishTsMs r.id r.topicId) t
      (fun oldest u => oldest = CreateOp.oldestUnacked t.kv r.topicId c ∧ u = t)
      (fun _ u => u = t) := by
    simp only [oldestUnackedPublishTsMs, ensures_bind, ensures_get, ensures_pure]
    refine hload.mono (fun c' u h => ?_) (fun _ _ h => h)
    obtain ⟨hc', rfl⟩ := h
    rw [hc, Except.ok.injEq] at hc'
    rw [hc']
    exact ⟨rfl, rfl⟩
  refine Checked.bind (hold.mono (fun _ u h => by rw [h.2]) (fun _ u h => by rw [h]))
    fun oldest u ho => ?_
  obtain ⟨rfl, rfl⟩ := hold.of_ok ho
  refine checkedCall_check fun expireAtMs he => ?_
  simp only [rowWrites, hr, hc, he]
  exact (checked_snapshotCreate name r.topic r.topicId labels c expireAtMs).onKv

/-- The calls that make, change or delete a topic, a subscription or a snapshot. -/
def Op.Metadata : Op → Prop
  | .createTopic .. | .createSubscription .. | .createSnapshot .. | .updateSubscription ..
  | .deleteSubscription .. | .deleteTopic .. => True
  | _ => False

theorem checked_perform {op : Op} (hop : op.Metadata) (nowMs : Int) :
    CheckedCall (rowWrites s nowMs op) (perform nowMs op) s := by
  cases op with
  | createTopic name labels retention kms schema ingestion =>
    exact (checked_createTopic name labels retention kms schema ingestion s nowMs).onKv.bind_pure _
  | createSubscription name topic opts =>
    exact (checked_createSubscription name topic opts nowMs s).onKv.bind_pure _
  | createSnapshot name subscription labels =>
    exact (checked_createSnapshot name subscription labels nowMs).bind_pure _
  | updateSubscription name patch =>
    exact (checked_updateSubscription name patch nowMs s).onKv.bind_pure _
  | deleteSubscription name =>
    exact (checked_deleteSubscription name nowMs s).onKv.bind_pure _
  | deleteTopic name => exact (checked_deleteTopic name nowMs s).onKv.bind_pure _
  | _ => exact hop.elim

theorem rowWrites_total {op : Op} (hop : ∀ name, op ≠ .deleteTopic name) (nowMs : Int) :
    ∀ w ∈ rowWrites s nowMs op, ∀ rows, ∃ rows', w rows = some rows' := by
  cases op with
  | createTopic name labels retention kms schema ingestion =>
    simp [rowWrites, countId, topicWrites]
  | createSubscription name topic opts =>
    simp only [rowWrites]
    split <;> simp [countId, persistWrites, attachWrites]
  | createSnapshot name subscription labels =>
    simp only [rowWrites]
    split
    · simp
    · split
      · simp
      · split <;> simp [countId, snapshotWrites]
  | updateSubscription name patch =>
    simp only [rowWrites]
    split <;> simp [persistWrites]
  | deleteSubscription name =>
    simp only [rowWrites]
    split <;> simp
  | deleteTopic name => exact absurd rfl (hop name)
  | _ => simp [rowWrites]

/-- Every subscription that the index lists for the topic has its record. -/
def Kv.Listed (kv : Kv) (topicId : Nat) (rows : Kv) : Prop :=
  ∀ i ∈ SubscriptionStore.listByTopicId kv topicId, (rows.subs.get i).isSome

theorem deletedTopicWrites_find {kv rows : Kv} {topicId subId : Nat} {w : RowWrite}
    (hsub : subId ∈ SubscriptionStore.listByTopicId kv topicId)
    (hw : w ∈ deletedTopicWrites subId) (h : kv.Listed topicId rows) :
    ∃ rows', w rows = some rows' ∧ kv.Listed topicId rows' := by
  obtain ⟨r, hr⟩ := Option.isSome_iff_exists.mp (h subId hsub)
  simp only [deletedTopicWrites, List.mem_cons, List.not_mem_nil, or_false] at hw
  rcases hw with rfl | rfl
  · simp only [hr, Option.map_some]
    refine ⟨_, rfl, fun i hi => ?_⟩
    simp only [SortedMap.get_insert]
    split_ifs
    · rfl
    · exact h i hi
  · simp only [hr, Option.map_some]
    exact ⟨_, rfl, h⟩

theorem refused_of_stopped {op : Op} (hc : Consistent s.kv) {nowMs : Int} {k : Nat} {t : Kv}
    (happ : applyAll ((rowWrites s nowMs op).take k) s.kv.rows = some t.rows)
    (h : Stopped Kv.LastRefused Kv.rows (rowWrites s nowMs op) k t) : t.LastRefused := by
  by_cases hop : ∀ name, op ≠ .deleteTopic name
  · have hfind : ∀ w ∈ rowWrites s nowMs op, ∀ rows, True → ∃ rows', w rows = some rows' ∧ True :=
      fun w hw rows _ => (rowWrites_total hop nowMs w hw rows).imp fun _ h => ⟨h, trivial⟩
    exact h.refused hfind trivial happ
  · obtain ⟨name, hname⟩ := not_forall.mp hop
    obtain rfl := not_not.mp hname
    cases hr : TopicStore.get s.kv name with
    | error e =>
      refine h.resolve_right fun ⟨w, hw, _⟩ => ?_
      have hnil : rowWrites s nowMs (.deleteTopic name) = [] := by
        simp only [rowWrites, hr]
        cases TopicStore.resolveId s.kv name <;> rfl
      rw [hnil] at hw
      cases hw
    | ok r =>
      obtain ⟨id, hid, _⟩ := topicGet_eq_ok hr
      have hlisted : s.kv.Listed r.id s.kv.rows := fun i hi => by
        obtain ⟨x, hx, _⟩ := (hc.idx r.id i).mp (mem_listByTopicId hi)
        exact Option.isSome_iff_exists.mpr ⟨x, hx⟩
      simp only [rowWrites, hid, hr] at happ h
      refine h.refused (fun w hw rows hrows => ?_) hlisted happ
      rcases List.mem_append.mp hw with hw | hw
      · obtain ⟨i, hi, hw⟩ := List.mem_flatMap.mp hw
        exact deletedTopicWrites_find hi hw hrows
      · simp only [List.mem_cons, List.not_mem_nil, or_false] at hw
        rcases hw with rfl | rfl
        · exact ⟨_, rfl, hrows⟩
        · exact ⟨_, rfl, hrows⟩

variable {t : Engine}

/-- A metadata call that fails has made the first `k` of its writes, or none. It is a refused
write that stopped it, or in a store that is not consistent a missing record. -/
theorem failed_call_leaves_first_writes {op : Op} {nowMs : Int} {e : Error} (hop : op.Metadata)
    (hfail : perform nowMs op s = .error e t) :
    t.kv.rows = s.kv.rows ∨ ∃ k < (rowWrites s nowMs op).length,
      applyAll ((rowWrites s nowMs op).take k) s.kv.rows = some t.kv.rows ∧
      Stopped Kv.LastRefused Kv.rows (rowWrites s nowMs op) k t.kv ∧
      (Consistent s.kv → t.kv.LastRefused) := by
  refine ((checked_perform hop nowMs).of_error hfail).imp_right fun ⟨k, hk, happ, hstop⟩ => ?_
  exact ⟨k, hk, happ, hstop, fun hc => refused_of_stopped hc happ hstop⟩

/-- After the set-up the store takes `n` more writes. -/
def cutStore (n : Nat) : Engine :=
  let s := Run.final step start (setup {})
  { s with kv := { s.kv with ok := fun i => i < s.kv.writes + n } }

theorem consistent_cutStore (n : Nat) : Consistent (cutStore n).kv := by
  have hc := (consistent_final (setup {})).1
  unfold cutStore
  generalize Run.final step start (setup {}) = s at hc ⊢
  exact consistent_withOk hc _

def createSubC : Op :=
  .createSubscription "projects/p/subscriptions/subC" "projects/p/topics/top1" {}

/-- A run that fails, and leaves a state where `p` holds. -/
def failsIn {α : Type} (p : Engine → Bool) : EStateM.Result Error Engine α → Bool
  | .ok _ _ => false
  | .error _ t => p t

/-- The counter, the record and its name are written, the cursor is not. -/
theorem failed_call_leaves_first_writes_subscription :
    ∃ t e, perform 0 createSubC (cutStore 3) = .error e t ∧
      (t.kv.rows = (cutStore 3).kv.rows ∨ ∃ k < (rowWrites (cutStore 3) 0 createSubC).length,
        applyAll ((rowWrites (cutStore 3) 0 createSubC).take k) (cutStore 3).kv.rows =
          some t.kv.rows ∧ t.kv.LastRefused) := by
  have hfails : failsIn (fun _ => true) (perform 0 createSubC (cutStore 3)) = true := by
    decide +kernel
  have hc := consistent_cutStore 3
  generalize cutStore 3 = s at hfails hc ⊢
  cases hr : perform 0 createSubC s with
  | ok r t =>
    rw [hr] at hfails
    cases hfails
  | error e t =>
    have hop : createSubC.Metadata := trivial
    refine ⟨t, e, rfl, (failed_call_leaves_first_writes hop hr).imp_right ?_⟩
    rintro ⟨k, hk, happ, _, hrefused⟩
    exact ⟨k, hk, happ, hrefused hc⟩

/-- The failed call leaves a record and a name without a cursor. -/
theorem failed_call_leaves_half :
    ¬ ∀ (s t : Engine) (nowMs : Int) (op : Op) (e : Error), op.Metadata →
      perform nowMs op s = .error e t → t.kv.subs = s.kv.subs ∧ t.kv.subNames = s.kv.subNames ∧
        t.kv.cursors = s.kv.cursors ∧ t.kv.idx = s.kv.idx := by
  intro h
  have hhalf : failsIn (fun t => (t.kv.subs.get 4).isSome && t.kv.subNames.get
      "projects/p/subscriptions/subC" == some 4 && (t.kv.cursors.get 4).isNone)
      (perform 0 createSubC (cutStore 3)) = true := by
    decide +kernel
  have hbefore : ((cutStore 3).kv.subs.get 4).isSome = false := by decide +kernel
  generalize cutStore 3 = s at hhalf hbefore
  cases hr : perform 0 createSubC s with
  | ok r t =>
    rw [hr] at hhalf
    cases hhalf
  | error e t =>
    simp only [hr, failsIn, Bool.and_eq_true] at hhalf
    have hsame := (h s t 0 createSubC e trivial hr).1
    rw [hsame, hbefore] at hhalf
    cases hhalf.1.1

end Calls

end OpenPubusb
