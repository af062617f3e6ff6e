import Mathlib.Logic.Function.Basic
import OpenPubusb.Catalog

/-! Concurrent creations of topics, subscriptions and snapshots, as interleavings
of their store steps. They share the id counter and look their name up long before
they write it. -/

namespace OpenPubusb

open Hoare

inductive CreateOp where
  | topic (fullName : String) (labels : SortedMap String String)
      (messageRetentionSecs : Option Int) (kmsKeyName : Option String)
      (hasSchemaSettings hasIngestionSettings : Bool)
  | subscription (fullName topic : String) (opts : CreateSubscriptionOptions) (nowMs : Int)
  | snapshot (fullName subscription : String) (labels : SortedMap String String) (nowMs : Int)

/-- The kind and the name of the resource. -/
def CreateOp.target : CreateOp → Kind × String
  | .topic fullName _ _ _ _ _ => (.topic, fullName)
  | .subscription fullName _ _ _ => (.subscription, fullName)
  | .snapshot fullName _ _ _ => (.snapshot, fullName)

/-- The call as a whole; the result is the id of the record. -/
def CreateOp.perform : CreateOp → EngineM Nat
  | .topic fullName labels retention kms schema ingestion => do
    let r ← PubSubService.createTopic fullName labels retention kms schema ingestion
    pure r.id
  | .subscription fullName topicName opts nowMs => do
    let r ← PubSubService.createSubscription fullName topicName opts nowMs
    pure r.id
  | .snapshot fullName subName labels nowMs => do
    let r ← PubSubService.createSnapshot fullName subName labels nowMs
    pure r.id

def Kv.nameRow (kv : Kv) (target : Kind × String) : Option Nat :=
  match target.1 with
  | .topic => kv.topicNames.get target.2
  | .subscription => kv.subNames.get target.2
  | .snapshot => kv.snapNames.get target.2

def putName (target : Kind × String) (id : Nat) : KvM Unit :=
  match target.1 with
  | .topic => putTopicName target.2 id
  | .subscription => putSubName target.2 id
  | .snapshot => putSnapName target.2 id

/-- The record to be written, once its id is known. A subscription comes with the
point it attaches at. -/
inductive Draft where
  | topic (r : TopicRecord)
  | subscription (r : SubscriptionRecord) (attachSeq : Nat)
  | snapshot (r : SnapshotRecord)

/-- The id after `current`, as the store of the record computes it. -/
def Draft.nextId (d : Draft) (current : Nat) : Result Nat :=
  match d with
  | .topic _ => .ok (satSuccU64 current)
  | .subscription _ _ => SubscriptionStore.idAfter current
  | .snapshot _ => .ok (satSuccU64 current)

theorem Draft.nextId_of_lt (d : Draft) {n : Nat} (h : n < u64Max) : d.nextId n = .ok (n + 1) := by
  cases d with
  | subscription r a => exact SubscriptionStore.idAfter_of_lt h
  | _ => rw [Draft.nextId, satSuccU64_of_lt h]

def Draft.put (d : Draft) (id : Nat) : KvM Unit :=
  match d with
  | .topic r => putTopic id { r with id := id }
  | .subscription r _ => putSub id { r with id := id }
  | .snapshot r => putSnap id { r with id := id }

inductive CreatePhase where
  | start
  /-- The name row of the topic, or of the subscription, gave its id. -/
  | resolved (id : Nat)
  | topicLoaded (t : TopicRecord)
  | subLoaded (r : SubscriptionRecord)
  | cursorRead (r : SubscriptionRecord) (c : CursorRecord)
  /-- The cursor was read again, to find the oldest open message. -/
  | cursorReread (r : SubscriptionRecord) (c c' : CursorRecord)
  /-- The arguments are checked, the lookup of the name is next. -/
  | ready (d : Draft)
  | absent (d : Draft)
  | read (d : Draft) (counter : Nat)
  | counted (d : Draft) (id : Nat)
  | recorded (d : Draft) (id : Nat)
  | named (d : Draft) (id : Nat)
  | cursored (d : Draft) (id : Nat)
  | finished (id : Nat)
  | failed

namespace CreateOp

def topicDraft (fullName : String) (labels : SortedMap String String)
    (messageRetentionSecs : Option Int) (kmsKeyName : Option String) : Draft :=
  .topic ⟨0, fullName, labels, messageRetentionSecs.getD 0, kmsKeyName⟩

def oldestUnacked (kv : Kv) (topicId : Nat) (c : CursorRecord) : Option Int :=
  ((scanPrefix kv.msg topicId).find? (fun row => ¬ c.isDone row.1)).map
    (fun row => row.2.publishTsMs)

def readCursor (kv : Kv) (subId : Nat) : Result CursorRecord :=
  match kv.cursors.get subId with
  | none => .error (.notFound s!"subscription cursor for id {subId}")
  | some c => .ok c

/-- The checks of a snapshot before the lookup; the result is when it expires. -/
def checkSnapshot (fullName : String) (nowMs : Int) (oldest : Option Int) : Result Int := do
  let expireAtMs ← computeExpireAtMs nowMs oldest
  let _ ← ResourceName.parse "snapshots" fullName
  pure expireAtMs

def step (op : CreateOp) : CreatePhase → KvM CreatePhase
  | .start =>
    match op with
    | .topic fullName labels retention kms schema ingestion => do
      liftResult (TopicStore.checkCreate fullName retention schema ingestion)
      pure (.ready (topicDraft fullName labels retention kms))
    | .subscription _ topicName _ _ => do
      let kv ← get
      let id ← liftResult (TopicStore.resolveId kv topicName)
      pure (.resolved id)
    | .snapshot _ subName _ _ => do
      let kv ← get
      match kv.subNames.get subName with
      | none => throw (.notFound subName)
      | some id => pure (.resolved id)
  | .resolved id =>
    match op with
    | .snapshot _ subName _ _ => do
      let kv ← get
      let r ← liftResult (SubscriptionStore.load kv id subName)
      pure (.subLoaded r)
    | _ => do
      let kv ← get
      let t ← liftResult (TopicStore.loadRecord kv id)
      pure (.topicLoaded t)
  | .topicLoaded t =>
    match op with
    | .subscription fullName topicName opts nowMs => do
      let kv ← get
      let n ← liftResult (SubscriptionStore.checkOptions fullName topicName opts)
      pure (.ready (.subscription (SubscriptionStore.newRecord fullName topicName t.id nowMs opts n 0)
        (TopicStore.currentTail kv t.id)))
    | _ => pure (.topicLoaded t)
  | .subLoaded r => do
    let kv ← get
    let c ← liftResult (readCursor kv r.id)
    pure (.cursorRead r c)
  | .cursorRead r c => do
    let kv ← get
    let c' ← liftResult (readCursor kv r.id)
    pure (.cursorReread r c c')
  | .cursorReread r c c' =>
    match op with
    | .snapshot fullName _ labels nowMs => do
      let kv ← get
      let expireAtMs ← liftResult (checkSnapshot fullName nowMs (oldestUnacked kv r.topicId c'))
      pure (.ready (.snapshot ⟨0, fullName, r.topic, r.topicId, labels, c, expireAtMs⟩))
    | _ => pure (.cursorReread r c c')
  | .ready d => do
    let kv ← get
    if (kv.nameRow op.target).isSome then throw (.alreadyExists op.target.2) else pure (.absent d)
  | .absent d => do
    let kv ← get
    pure (.read d (kv.idSeq.getD 0))
  | .read d n => do
    let id ← liftResult (d.nextId n)
    putIdSeq id
    pure (.counted d id)
  | .counted d id => do
    d.put id
    pure (.recorded d id)
  | .recorded d id => do
    putName op.target id
    match d with
    | .subscription _ _ => pure (.named d id)
    | _ => pure (.finished id)
  | .named d id =>
    match d with
    | .subscription _ attachSeq => do
      putCursor id (.fresh attachSeq attachSeq)
      pure (.cursored d id)
    | _ => pure (.finished id)
  | .cursored d id =>
    match d with
    | .subscription r _ => do
      putIdx r.topicId id
      pure (.finished id)
    | _ => pure (.finished id)
  | .finished id => pure (.finished id)
  | .failed => pure .failed

def steps (op : CreateOp) : Nat → CreatePhase → KvM CreatePhase
  | 0, phase => pure phase
  | n + 1, phase => do
    let phase ← op.step phase
    op.steps n phase

theorem steps_finished (op : CreateOp) (n id : Nat) :
    op.steps n (.finished id) = pure (.finished id) := by
  induction n with
  | zero => rfl
  | succ n ih => simpa only [steps, step, pure_bind] using ih

section Perform

variable {op : CreateOp}

theorem steps_ready (n : Nat) (d : Draft) (kv : Kv) :
    op.steps (n + 1) (.ready d) kv =
      if (kv.nameRow op.target).isSome then .error (.alreadyExists op.target.2) kv
      else op.steps n (.absent d) kv := by
  have hget : (get : KvM Kv) kv = .ok kv kv := rfl
  simp only [steps, step, bind, EStateM.bind, hget]
  split_ifs <;> rfl

theorem steps_absent (n : Nat) {d : Draft} (hd : ∀ r a, d ≠ .subscription r a) {kv : Kv}
    (h : kv.counter < u64Max) :
    op.steps (n + 4) (.absent d) kv = (do
      let id ← nextId
      d.put id
      putName op.target id
      pure (.finished id) : KvM CreatePhase) kv := by
  have hget : ∀ {α : Type} (f : Kv → KvM α), (get >>= f) kv = f kv kv := fun f => rfl
  have hid : d.nextId (kv.idSeq.getD 0) = .ok (kv.idSeq.getD 0 + 1) := d.nextId_of_lt h
  cases d with
  | subscription r a => exact absurd rfl (hd r a)
  | _ =>
    simp only [steps, step, nextId, bind_assoc, pure_bind, steps_finished, hget, hid, liftResult]

theorem steps_absent_sub (n : Nat) (r : SubscriptionRecord) (attachSeq : Nat) {kv : Kv}
    (h : kv.counter < u64Max) :
    op.steps (n + 6) (.absent (.subscription r attachSeq)) kv = (do
      let id ← nextId
      putSub id { r with id := id }
      putName op.target id
      putCursor id (.fresh attachSeq attachSeq)
      putIdx r.topicId id
      pure (.finished id) : KvM CreatePhase) kv := by
  have hget : ∀ {α : Type} (f : Kv → KvM α), (get >>= f) kv = f kv kv := fun f => rfl
  have hid : (Draft.subscription r attachSeq).nextId (kv.idSeq.getD 0) =
      .ok (kv.idSeq.getD 0 + 1) := Draft.nextId_of_lt _ h
  simp only [steps, step, Draft.put, nextId, bind_assoc, pure_bind, steps_finished, hget, hid,
    liftResult]

theorem steps_topic (fullName : String) (labels : SortedMap String String) (retention : Option Int)
    (kms : Option String) (schema ingestion : Bool) {kv : Kv} (h : kv.counter < u64Max) :
    (topic fullName labels retention kms schema ingestion).steps 10 .start kv = (do
      let r ← TopicStore.create fullName labels retention kms schema ingestion
      pure (.finished r.id) : KvM CreatePhase) kv := by
  simp only [TopicStore.create, bind_assoc]
  change ((do
    liftResult (TopicStore.checkCreate fullName retention schema ingestion)
    pure (.ready (topicDraft fullName labels retention kms))) >>=
    (topic fullName labels retention kms schema ingestion).steps 9 : KvM CreatePhase) kv = _
  cases TopicStore.checkCreate fullName retention schema ingestion with
  | error e => rfl
  | ok _ =>
    change (topic fullName labels retention kms schema ingestion).steps 9 (.ready _) kv = _
    rw [steps_ready]
    change _ = ((if (kv.topicNames.get fullName).isSome then throw (.alreadyExists fullName)
      else _) >>= _ : KvM CreatePhase) kv
    change (if (kv.topicNames.get fullName).isSome then _ else _) = _
    split_ifs with hn
    · rfl
    · rw [topicDraft, steps_absent 4 (by simp) h]
      simp only [bind_assoc, pure_bind]
      rfl

theorem steps_read {phase : CreatePhase} {α : Type} {f : Kv → Result α} {g : Kv → α → CreatePhase}
    (hstep : op.step phase = (do
      let kv ← get
      let a ← liftResult (f kv)
      pure (g kv a))) (n : Nat) (kv : Kv) :
    op.steps (n + 1) phase kv =
      match f kv with
      | .error e => .error e kv
      | .ok a => op.steps n (g kv a) kv := by
  have hget : ∀ (h : Kv → KvM CreatePhase), (get >>= h) kv = h kv kv := fun _ => rfl
  rw [steps, hstep, bind_assoc, hget]
  cases f kv <;> rfl

theorem steps_subscription (fullName topicName : String) (opts : CreateSubscriptionOptions)
    (nowMs : Int) {kv : Kv} (h : kv.counter < u64Max) :
    (subscription fullName topicName opts nowMs).steps 10 .start kv = (do
      let kv ← get
      let t ← liftResult (TopicStore.get kv topicName)
      let r ← SubscriptionStore.create fullName topicName t.id
        (TopicStore.currentTail kv t.id) nowMs opts
      pure (.finished r.id) : KvM CreatePhase) kv := by
  have hget : ∀ {α : Type} (f : Kv → KvM α), (get >>= f) kv = f kv kv := fun f => rfl
  rw [hget, steps_read (f := fun kv => TopicStore.resolveId kv topicName)
    (g := fun _ id => .resolved id) rfl, TopicStore.get]
  cases TopicStore.resolveId kv topicName with
  | error e => rfl
  | ok id =>
    simp only
    rw [steps_read (f := fun kv => TopicStore.loadRecord kv id) (g := fun _ t => .topicLoaded t) rfl]
    change _ = (liftResult (TopicStore.loadRecord kv id) >>= _ : KvM CreatePhase) kv
    cases TopicStore.loadRecord kv id with
    | error e => rfl
    | ok t =>
      simp only
      rw [steps_read (f := fun _ => SubscriptionStore.checkOptions fullName topicName opts)
        (g := fun kv n => .ready (.subscription
          (SubscriptionStore.newRecord fullName topicName t.id nowMs opts n 0)
          (TopicStore.currentTail kv t.id))) rfl]
      simp only [SubscriptionStore.create, bind_assoc]
      change _ = (liftResult (SubscriptionStore.checkOptions fullName topicName opts) >>= _ :
        KvM CreatePhase) kv
      cases SubscriptionStore.checkOptions fullName topicName opts with
      | error e => rfl
      | ok n =>
        simp only
        rw [steps_ready, steps_absent_sub _ _ _ h]
        change (if (kv.subNames.get fullName).isSome then _ else _) =
          ((if (kv.subNames.get fullName).isSome then throw (.alreadyExists fullName) else _) >>= _ :
            KvM CreatePhase) kv
        split_ifs
        · rfl
        · simp only [SubscriptionStore.persist, bind_assoc, pure_bind]
          rfl

theorem steps_snapshot (fullName subName : String) (labels : SortedMap String String)
    (nowMs : Int) {kv : Kv} (h : kv.counter < u64Max) :
    (snapshot fullName subName labels nowMs).steps 10 .start kv = (do
      let kv ← get
      let sub ← liftResult (SubscriptionStore.get kv subName)
      let c ← liftResult (readCursor kv sub.id)
      let expireAtMs ← liftResult (computeExpireAtMs nowMs (oldestUnacked kv sub.topicId c))
      let r ← SnapshotStore.create fullName sub.topic sub.topicId labels c expireAtMs
      pure (.finished r.id) : KvM CreatePhase) kv := by
  have hget : ∀ {α : Type} (f : Kv → KvM α), (get >>= f) kv = f kv kv := fun f => rfl
  have hstart : (snapshot fullName subName labels nowMs).steps 10 .start kv =
      match kv.subNames.get subName with
      | none => .error (.notFound subName) kv
      | some id => (snapshot fullName subName labels nowMs).steps 9 (.resolved id) kv := by
    rw [steps, step, bind_assoc, hget]
    cases kv.subNames.get subName <;> rfl
  rw [hget, hstart, SubscriptionStore.get]
  cases kv.subNames.get subName with
  | none => rfl
  | some id =>
    simp only
    rw [steps_read (f := fun kv => SubscriptionStore.load kv id subName)
      (g := fun _ r => .subLoaded r) rfl]
    cases SubscriptionStore.load kv id subName with
    | error e => rfl
    | ok sub =>
      simp only
      change _ = (liftResult (readCursor kv sub.id) >>= _ : KvM CreatePhase) kv
      rw [steps_read (f := fun kv => readCursor kv sub.id) (g := fun _ c => .cursorRead sub c) rfl]
      cases hc : readCursor kv sub.id with
      | error e => rfl
      | ok c =>
        simp only
        rw [steps_read (f := fun kv => readCursor kv sub.id)
          (g := fun _ c' => .cursorReread sub c c') rfl, hc]
        simp only
        rw [steps_read
          (f := fun kv => checkSnapshot fullName nowMs (oldestUnacked kv sub.topicId c))
          (g := fun _ e => .ready (.snapshot ⟨0, fullName, sub.topic, sub.topicId, labels, c, e⟩)) rfl,
          checkSnapshot]
        change _ = (liftResult (computeExpireAtMs nowMs (oldestUnacked kv sub.topicId c)) >>= _ :
          KvM CreatePhase) kv
        cases computeExpireAtMs nowMs (oldestUnacked kv sub.topicId c) with
        | error e => rfl
        | ok expireAtMs =>
          change _ = (SnapshotStore.create fullName sub.topic sub.topicId labels c expireAtMs >>= _ :
            KvM CreatePhase) kv
          simp only [SnapshotStore.create, bind_assoc]
          cases ResourceName.parse "snapshots" fullName with
          | error e => rfl
          | ok _ =>
            change (snapshot fullName subName labels nowMs).steps 5 (.ready _) kv = _
            rw [steps_ready, steps_absent 0 (by simp) h]
            change (if (kv.snapNames.get fullName).isSome then _ else _) =
              ((if (kv.snapNames.get fullName).isSome then throw (.alreadyExists fullName)
                else _) >>= _ : KvM CreatePhase) kv
            split_ifs
            · rfl
            · simp only [bind_assoc, pure_bind]
              rfl

theorem onKv_bind_pure {α β : Type} (m : KvM α) (f : α → β) :
    onKv (m >>= fun a => pure (f a)) = (do
      let a ← onKv m
      pure (f a)) := by
  funext s
  simp only [onKv, focus, bind, EStateM.bind]
  cases m s.kv <;> rfl

theorem onKv_congr {α : Type} {m m' : KvM α} {s : Engine} (h : m s.kv = m' s.kv) :
    onKv m s = onKv m' s := by
  unfold onKv focus
  rw [h]

/-- As long as the counter has room, the steps of a call in a row are the call. -/
theorem steps_eq_perform (op : CreateOp) {s : Engine} (h : s.kv.counter < u64Max) :
    onKv (op.steps 10 .start) s = (do
      let id ← op.perform
      pure (.finished id) : EngineM CreatePhase) s := by
  cases op with
  | topic fullName labels retention kms schema ingestion =>
    rw [onKv_congr (steps_topic _ _ _ _ _ _ h), onKv_bind_pure, perform, bind_assoc]
    simp only [pure_bind]
    rfl
  | subscription fullName topicName opts nowMs =>
    rw [onKv_congr (steps_subscription _ _ _ _ h), perform, PubSubService.createSubscription,
      bind_assoc]
    simp only [pure_bind, ← onKv_bind_pure, bind_assoc]
  | snapshot fullName subName labels nowMs =>
    rw [onKv_congr (steps_snapshot _ _ _ _ h)]
    simp only [perform, PubSubService.createSnapshot, bind_assoc, pure_bind]
    change onKv (liftResult (SubscriptionStore.get s.kv subName) >>= _) s =
      (liftResult (SubscriptionStore.get s.kv subName) >>= _ : EngineM CreatePhase) s
    cases SubscriptionStore.get s.kv subName with
    | error e => rfl
    | ok sub =>
      change onKv (liftResult (readCursor s.kv sub.id) >>= _) s =
        (loadCursor sub.id >>= _ : EngineM CreatePhase) s
      have hload : loadCursor sub.id s =
          (liftResult (readCursor s.kv sub.id) : EngineM CursorRecord) s := by
        simp only [loadCursor, readCursor, bind, EStateM.bind, get, getThe, MonadStateOf.get,
          estateGet_apply]
        cases s.kv.cursors.get sub.id <;> rfl
      cases hc : readCursor s.kv sub.id with
      | error e =>
        rw [hc] at hload
        change _ = EStateM.bind (loadCursor sub.id) _ s
        rw [EStateM.bind, hload]
        rfl
      | ok c =>
        rw [hc] at hload
        have hold : oldestUnackedPublishTsMs sub.id sub.topicId s =
            .ok (oldestUnacked s.kv sub.topicId c) s := by
          change EStateM.bind (loadCursor sub.id) _ s = _
          rw [EStateM.bind, hload]
          rfl
        change _ = EStateM.bind (loadCursor sub.id) _ s
        rw [EStateM.bind, hload]
        change _ = EStateM.bind (oldestUnackedPublishTsMs sub.id sub.topicId) _ s
        rw [EStateM.bind, hold]
        change onKv (liftResult (computeExpireAtMs nowMs (oldestUnacked s.kv sub.topicId c)) >>= _) s =
          (liftResult (computeExpireAtMs nowMs (oldestUnacked s.kv sub.topicId c)) >>= _ :
            EngineM CreatePhase) s
        cases computeExpireAtMs nowMs (oldestUnacked s.kv sub.topicId c) with
        | error e => rfl
        | ok expireAtMs =>
          exact congrFun (onKv_bind_pure
            (SnapshotStore.create fullName sub.topic sub.topicId labels c expireAtMs)
            fun r => CreatePhase.finished r.id) s

end Perform

end CreateOp

namespace CreatePhase

/-- The counter value that the call has read and is about to write back, plus one. -/
def drawn : CreatePhase → Option Nat
  | .read _ n => some n
  | _ => none

/-- The call is about to draw an id, and `saturating_add` leaves the counter where it is. -/
def saturated : CreatePhase → Bool
  | .read (.subscription _ _) _ => false
  | .read _ n => decide (u64Max ≤ n)
  | _ => false

def taken : CreatePhase → Option Nat
  | .counted _ id => some id
  | .recorded _ id => some id
  | .named _ id => some id
  | .cursored _ id => some id
  | .finished id => some id
  | _ => none

/-- The id in the reply of a call that has returned `Ok`. -/
def returned : CreatePhase → Option Nat
  | .finished id => some id
  | _ => none

def naming : CreatePhase → Bool
  | .recorded _ _ => true
  | _ => false

def holds : CreatePhase → Bool
  | .named _ _ => true
  | .cursored _ _ => true
  | .finished _ => true
  | _ => false

theorem nextId_eq_ok {d : Draft} {n id : Nat} (h : d.nextId n = .ok id)
    (hs : (read d n).saturated = false) : id = n + 1 := by
  cases d with
  | subscription r a =>
    simp only [Draft.nextId, SubscriptionStore.idAfter, succU64] at h
    by_cases hn : n < u64Max
    · rw [if_pos hn] at h
      exact (Except.ok.inj h).symm
    · rw [if_neg hn] at h
      cases h
  | _ =>
    have hn : n < u64Max := by simpa [saturated] using hs
    rw [Draft.nextId, satSuccU64_of_lt hn] at h
    exact (Except.ok.inj h).symm

end CreatePhase

/-- The id counter and the names are the same. -/
structure SameIndex (kv kv' : Kv) : Prop where
  idSeq : kv'.idSeq = kv.idSeq
  names : ∀ t, kv'.nameRow t = kv.nameRow t

/-- Everything a step of a call can do to the counter, the names and its phase. -/
inductive CreateStep (op : CreateOp) (kv : Kv) (p : CreatePhase) (kv' : Kv) (p' : CreatePhase) :
    Prop where
  | quiet (hsame : SameIndex kv kv') (htaken : ∀ i, p'.taken = some i → p.taken = some i)
      (hholds : p'.holds = true → p.holds = true)
  | count (n id : Nat) (hp : p.drawn = some n) (hid : p.saturated = false → id = n + 1)
      (hseq : kv'.idSeq = some id) (hnames : ∀ t, kv'.nameRow t = kv.nameRow t)
      (htaken : p'.taken = some id)
      (hholds : p'.holds = false)
  | name (id : Nat) (hp : p.naming = true) (hid : p.taken = some id)
      (hseq : kv'.idSeq = kv.idSeq)
      (hrow : ∀ t, kv'.nameRow t = if t = op.target then some id else kv.nameRow t)
      (htaken : p'.taken = some id)

section Step

variable {op : CreateOp} {kv kv' : Kv} {p : CreatePhase}

theorem SameIndex.refl (kv : Kv) : SameIndex kv kv := ⟨rfl, fun _ => rfl⟩

theorem SameIndex.tick (kv : Kv) : SameIndex kv kv.tick := by
  refine ⟨rfl, fun ⟨kind, n⟩ => ?_⟩
  cases kind <;> rfl

theorem createStep_failed (hsame : SameIndex kv kv') : CreateStep op kv p kv' .failed :=
  .quiet hsame (fun _ h => by cases h) (fun h => by cases h)

theorem createStep_reading {p' : CreatePhase} (htaken : p'.taken = none)
    (hholds : p'.holds = false) : CreateStep op kv p kv p' := by
  refine .quiet (.refl kv) (fun i h => ?_) (fun h => ?_)
  · rw [htaken] at h
    cases h
  · rw [hholds] at h
    cases h

theorem ensures_other_row {f : Kv → Kv} (hf : SameIndex kv.tick (f kv.tick)) :
    Ensures (kvWrite f) kv (fun _ kv' => SameIndex kv kv') (fun _ kv' => SameIndex kv kv') := by
  rw [ensures_kvWrite]
  have htick := SameIndex.tick kv
  refine ⟨fun _ => ⟨hf.idSeq.trans htick.idSeq, fun t => ?_⟩, fun _ => htick⟩
  exact (hf.names t).trans (htick.names t)

theorem ensures_draft_put (d : Draft) (id : Nat) :
    Ensures (d.put id) kv (fun _ kv' => SameIndex kv kv') (fun _ kv' => SameIndex kv kv') := by
  cases d with
  | topic r =>
    unfold Draft.put putTopic
    apply ensures_other_row
    exact ⟨rfl, fun ⟨kind, n⟩ => by cases kind <;> rfl⟩
  | subscription r a =>
    unfold Draft.put putSub
    apply ensures_other_row
    exact ⟨rfl, fun ⟨kind, n⟩ => by cases kind <;> rfl⟩
  | snapshot r =>
    unfold Draft.put putSnap
    apply ensures_other_row
    exact ⟨rfl, fun ⟨kind, n⟩ => by cases kind <;> rfl⟩

theorem ensures_putName (target : Kind × String) (id : Nat) :
    Ensures (putName target id) kv
      (fun _ kv' => kv'.idSeq = kv.idSeq ∧
        ∀ t, kv'.nameRow t = if t = target then some id else kv.nameRow t)
      (fun _ kv' => SameIndex kv kv') := by
  obtain ⟨kind, n⟩ := target
  cases kind with
  | topic =>
    simp only [putName, putTopicName, ensures_kvWrite]
    refine ⟨fun _ => ⟨trivial, fun ⟨kind', n'⟩ => ?_⟩, fun _ => .tick kv⟩
    cases kind' <;> simp [Kv.nameRow, SortedMap.get_insert]
  | subscription =>
    simp only [putName, putSubName, ensures_kvWrite]
    refine ⟨fun _ => ⟨trivial, fun ⟨kind', n'⟩ => ?_⟩, fun _ => .tick kv⟩
    cases kind' <;> simp [Kv.nameRow, SortedMap.get_insert]
  | snapshot =>
    simp only [putName, putSnapName, ensures_kvWrite]
    refine ⟨fun _ => ⟨trivial, fun ⟨kind', n'⟩ => ?_⟩, fun _ => .tick kv⟩
    cases kind' <;> simp [Kv.nameRow, SortedMap.get_insert]

theorem createStep_checks (hp : p.taken = none) (hd : p.drawn = none) :
    Ensures (op.step p) kv (fun p' kv' => CreateStep op kv p kv' p')
      (fun _ kv' => CreateStep op kv p kv' .failed) := by
  have hfail : CreateStep op kv p kv .failed := createStep_failed (.refl kv)
  cases p with
  | start =>
    cases op with
    | topic =>
      simp only [CreateOp.step, ensures_bind, ensures_liftResult, ensures_pure]
      exact ⟨fun _ _ => createStep_reading rfl rfl, fun _ _ => hfail⟩
    | subscription =>
      simp only [CreateOp.step, ensures_bind, ensures_get, ensures_liftResult, ensures_pure]
      exact ⟨fun _ _ => createStep_reading rfl rfl, fun _ _ => hfail⟩
    | snapshot fullName subName =>
      simp only [CreateOp.step, ensures_bind, ensures_get]
      cases kv.subNames.get subName with
      | none => exact hfail
      | some id => exact createStep_reading rfl rfl
  | resolved id =>
    cases op with
    | _ =>
      simp only [CreateOp.step, ensures_bind, ensures_get, ensures_liftResult, ensures_pure]
      exact ⟨fun _ _ => createStep_reading rfl rfl, fun _ _ => hfail⟩
  | topicLoaded t =>
    cases op with
    | subscription =>
      simp only [CreateOp.step, ensures_bind, ensures_get, ensures_liftResult, ensures_pure]
      exact ⟨fun _ _ => createStep_reading rfl rfl, fun _ _ => hfail⟩
    | _ => exact createStep_reading rfl rfl
  | subLoaded r =>
    simp only [CreateOp.step, ensures_bind, ensures_get, ensures_liftResult, ensures_pure]
    exact ⟨fun _ _ => createStep_reading rfl rfl, fun _ _ => hfail⟩
  | cursorRead r c =>
    simp only [CreateOp.step, ensures_bind, ensures_get, ensures_liftResult, ensures_pure]
    exact ⟨fun _ _ => createStep_reading rfl rfl, fun _ _ => hfail⟩
  | cursorReread r c c' =>
    cases op with
    | snapshot =>
      simp only [CreateOp.step, ensures_bind, ensures_get, ensures_liftResult, ensures_pure]
      exact ⟨fun _ _ => createStep_reading rfl rfl, fun _ _ => hfail⟩
    | _ => exact createStep_reading rfl rfl
  | ready d =>
    simp only [CreateOp.step, ensures_bind, ensures_get, ensures_ite, ensures_throw, ensures_pure]
    exact ⟨fun _ => hfail, fun _ => createStep_reading rfl rfl⟩
  | absent d => exact createStep_reading rfl rfl
  | failed => exact hfail
  | read d n => cases hd
  | counted d id => cases hp
  | recorded d id => cases hp
  | named d id => cases hp
  | cursored d id => cases hp
  | finished id => cases hp

theorem createStep (op : CreateOp) (kv : Kv) (p : CreatePhase) :
    Ensures (op.step p) kv (fun p' kv' => CreateStep op kv p kv' p')
      (fun _ kv' => CreateStep op kv p kv' .failed) := by
  have hkeep : ∀ {p p' : CreatePhase} {kv' : Kv}, SameIndex kv kv' →
      p'.taken = p.taken → p'.holds = p.holds → CreateStep op kv p kv' p' := by
    intro p p' kv' hsame htaken hholds
    exact .quiet hsame (fun i hi => htaken ▸ hi) fun h => hholds ▸ h
  cases p with
  | read d n =>
    simp only [CreateOp.step, ensures_bind, ensures_liftResult, putIdSeq, ensures_kvWrite,
      ensures_pure]
    refine ⟨fun id hid => ⟨fun _ => ?_, fun _ => createStep_failed (.tick kv)⟩,
      fun _ _ => createStep_failed (.refl kv)⟩
    exact .count n id rfl (CreatePhase.nextId_eq_ok hid) rfl (SameIndex.tick kv).names rfl rfl
  | counted d id =>
    simp only [CreateOp.step, ensures_bind, ensures_pure]
    exact (ensures_draft_put d id).mono (fun _ _ h => hkeep h rfl rfl)
      (fun _ _ h => createStep_failed h)
  | recorded d id =>
    simp only [CreateOp.step, ensures_bind]
    refine (ensures_putName op.target id).mono (fun _ kv' h => ?_) (fun _ _ h => createStep_failed h)
    cases d with
    | _ => exact .name id rfl rfl h.1 h.2 rfl
  | named d id =>
    cases d with
    | subscription r a =>
      simp only [CreateOp.step, ensures_bind, ensures_pure]
      refine (ensures_other_row ?_).mono (fun _ _ h => hkeep h rfl rfl)
        (fun _ _ h => createStep_failed h)
      refine ⟨rfl, fun target => ?_⟩
      obtain ⟨kind, n⟩ := target
      cases kind <;> rfl
    | _ => exact hkeep (.refl kv) rfl rfl
  | cursored d id =>
    cases d with
    | subscription r a =>
      simp only [CreateOp.step, ensures_bind, ensures_pure]
      refine (ensures_other_row ?_).mono (fun _ _ h => hkeep h rfl rfl)
        (fun _ _ h => createStep_failed h)
      refine ⟨rfl, fun target => ?_⟩
      obtain ⟨kind, n⟩ := target
      cases kind <;> rfl
    | _ => exact hkeep (.refl kv) rfl rfl
  | finished id => exact hkeep (.refl kv) rfl rfl
  | _ => exact createStep_checks rfl rfl

end Step

/-- Calls in progress, over one store. -/
structure Creators where
  kv : Kv
  ops : Nat → CreateOp
  phases : Nat → CreatePhase

namespace Creators

/-- The call `k` makes its next step. -/
def step (s : Creators) (k : Nat) : Unit × Creators :=
  match (s.ops k).step (s.phases k) s.kv with
  | .ok p kv => ((), { s with kv := kv, phases := Function.update s.phases k p })
  | .error _ kv => ((), { s with kv := kv, phases := Function.update s.phases k .failed })

def begin (kv : Kv) (ops : Nat → CreateOp) : Creators := ⟨kv, ops, fun _ => .start⟩

/-- The counter is still what the call `k` has read, with an id left to give, if it writes
it now, and the name of `k` is still free if it writes it now. -/
structure Undisturbed (s : Creators) (k : Nat) : Prop where
  counter : ∀ n, (s.phases k).drawn = some n → n = s.kv.counter
  room : (s.phases k).saturated = false
  name : (s.phases k).naming = true → s.kv.nameRow (s.ops k).target = none

/-- At most one call for each kind and name has returned, and no two have returned the
same id. -/
structure UniqueCreations (s : Creators) : Prop where
  names : ∀ k k' id id', (s.phases k).returned = some id → (s.phases k').returned = some id' →
    (s.ops k).target = (s.ops k').target → k = k'
  ids : ∀ k k' id, (s.phases k).returned = some id → (s.phases k').returned = some id → k = k'

/-- The invariant of undisturbed calls. -/
structure Apart (s : Creators) : Prop where
  bound : ∀ k i, (s.phases k).taken = some i → i ≤ s.kv.counter
  distinct : ∀ k k' i, (s.phases k).taken = some i → (s.phases k').taken = some i → k = k'
  held : ∀ k, (s.phases k).holds = true → (s.kv.nameRow (s.ops k).target).isSome
  single : ∀ k k', (s.phases k).holds = true → (s.phases k').holds = true →
    (s.ops k).target = (s.ops k').target → k = k'

theorem apart_begin (kv : Kv) (ops : Nat → CreateOp) : Apart (begin kv ops) where
  bound k i h := by cases h
  distinct k k' i h := by cases h
  held k h := by cases h
  single k k' h := by cases h

variable {s t : Creators} {k : Nat}

theorem phase_of_returned {p : CreatePhase} {id : Nat} (h : p.returned = some id) :
    p.taken = some id ∧ p.holds = true := by
  cases p with
  | finished i => exact ⟨h, rfl⟩
  | _ => cases h

theorem Apart.unique (h : Apart s) : UniqueCreations s where
  names k k' _ _ hk hk' :=
    h.single k k' (phase_of_returned hk).2 (phase_of_returned hk').2
  ids k k' id hk hk' :=
    h.distinct k k' id (phase_of_returned hk).1 (phase_of_returned hk').1

theorem step_cases (s : Creators) (k : Nat) :
    (s.step k).2.ops = s.ops ∧ (∀ j ≠ k, (s.step k).2.phases j = s.phases j) ∧
      CreateStep (s.ops k) s.kv (s.phases k) (s.step k).2.kv ((s.step k).2.phases k) := by
  have hst := createStep (s.ops k) s.kv (s.phases k)
  unfold Ensures at hst
  unfold Creators.step
  cases hr : (s.ops k).step (s.phases k) s.kv with
  | ok p kv =>
    rw [hr] at hst
    refine ⟨rfl, fun j hj => Function.update_of_ne hj _ _, ?_⟩
    simpa only [Function.update_self] using hst
  | error e kv =>
    rw [hr] at hst
    refine ⟨rfl, fun j hj => Function.update_of_ne hj _ _, ?_⟩
    simpa only [Function.update_self] using hst

theorem Apart.of_step (h : Apart s) (hops : t.ops = s.ops)
    (hother : ∀ j ≠ k, t.phases j = s.phases j)
    (hcount : s.kv.counter ≤ t.kv.counter)
    (hrow : ∀ n, (s.kv.nameRow n).isSome → (t.kv.nameRow n).isSome)
    (htaken : ∀ i, (t.phases k).taken = some i → (s.phases k).taken = some i ∨
      s.kv.counter < i ∧ i ≤ t.kv.counter)
    (hholds : (t.phases k).holds = true → (s.phases k).holds = true ∨
      s.kv.nameRow (s.ops k).target = none ∧ (t.kv.nameRow (s.ops k).target).isSome) :
    Apart t := by
  have htk : ∀ j i, (t.phases j).taken = some i → (s.phases j).taken = some i ∨
      j = k ∧ s.kv.counter < i ∧ i ≤ t.kv.counter := by
    intro j i hj
    by_cases hk : j = k
    · subst hk
      exact (htaken i hj).imp id fun hn => ⟨rfl, hn⟩
    · rw [hother j hk] at hj
      exact Or.inl hj
  have hhd : ∀ j, (t.phases j).holds = true → (s.phases j).holds = true ∨
      j = k ∧ s.kv.nameRow (s.ops k).target = none ∧ (t.kv.nameRow (s.ops k).target).isSome := by
    intro j hj
    by_cases hk : j = k
    · subst hk
      exact (hholds hj).imp id fun hn => ⟨rfl, hn⟩
    · rw [hother j hk] at hj
      exact Or.inl hj
  refine ⟨fun j i hj => ?_, fun j j' i hj hj' => ?_, fun j hj => ?_, fun j j' hj hj' he => ?_⟩
  · rcases htk j i hj with hj | ⟨_, _, hle⟩
    · exact (h.bound j i hj).trans hcount
    · exact hle
  · rcases htk j i hj with hj | ⟨hk, hlt, _⟩
    · rcases htk j' i hj' with hj' | ⟨_, hlt, _⟩
      · exact h.distinct j j' i hj hj'
      · have hle := h.bound j i hj
        omega
    · rcases htk j' i hj' with hj' | ⟨hk', _⟩
      · have hle := h.bound j' i hj'
        omega
      · rw [hk, hk']
  · rw [hops]
    rcases hhd j hj with hj | ⟨hk, _, hsome⟩
    · exact hrow _ (h.held j hj)
    · rw [hk]
      exact hsome
  · rw [hops] at he
    rcases hhd j hj with hj | ⟨hk, hnone, _⟩
    · rcases hhd j' hj' with hj' | ⟨hk', hnone, _⟩
      · exact h.single j j' hj hj' he
      · have hsome := h.held j hj
        rw [he, hk', hnone] at hsome
        cases hsome
    · rcases hhd j' hj' with hj' | ⟨hk', _⟩
      · have hsome := h.held j' hj'
        rw [← he, hk, hnone] at hsome
        cases hsome
      · rw [hk, hk']

theorem Apart.step (h : Apart s) (hu : Undisturbed s k) : Apart (s.step k).2 := by
  obtain ⟨hops, hother, hst⟩ := step_cases s k
  cases hst with
  | quiet hsame htaken hholds =>
    have hcount : (s.step k).2.kv.counter = s.kv.counter := by
      rw [Kv.counter, hsame.idSeq]
      rfl
    refine h.of_step hops hother (by omega) (fun n hn => ?_) (fun i hi => Or.inl (htaken i hi))
      fun hh => Or.inl (hholds hh)
    rwa [hsame.names]
  | count n id hp hid hseq hnames htaken hholds =>
    have hn := hu.counter n hp
    have hid := hid hu.room
    have hcount : (s.step k).2.kv.counter = s.kv.counter + 1 := by
      rw [Kv.counter, hseq, hid, hn]
      rfl
    refine h.of_step hops hother (by omega) (fun m hm => ?_) (fun i hi => Or.inr ?_) fun hh => ?_
    · rwa [hnames]
    · rw [htaken] at hi
      have hi : id = i := Option.some.inj hi
      omega
    · rw [hholds] at hh
      cases hh
  | name id hp hid hseq hrow htaken =>
    have hcount : (s.step k).2.kv.counter = s.kv.counter := by
      rw [Kv.counter, hseq]
      rfl
    refine h.of_step hops hother (by omega) (fun n hn => ?_) (fun i hi => Or.inl ?_)
      fun _ => Or.inr ⟨hu.name hp, ?_⟩
    · rw [hrow]
      split_ifs
      · rfl
      · exact hn
    · rw [← hi, htaken]
      exact hid
    · rw [hrow, if_pos rfl]
      rfl

end Creators

/-- Concurrent creations keep names and ids unique as long as no call writes back a
counter that has moved, or a name that was taken, since it looked. -/
theorem creations_unique (kv : Kv) (ops : Nat → CreateOp) (order : List Nat)
    (hu : ∀ tr ∈ Run.trace Creators.step (.begin kv ops) order,
      Creators.Undisturbed tr.pre tr.input) :
    Creators.UniqueCreations (Run.final Creators.step (.begin kv ops) order) := by
  have hinv := Run.inv_final (P := Creators.Apart)
    (C := fun tr => Creators.Undisturbed tr.pre tr.input)
    (fun s k hs hc => hs.step hc) (Creators.apart_begin kv ops) hu
  exact hinv.unique

/-- The creations of one topic, by everyone. -/
def sameTopic : Nat → CreateOp := fun _ =>
  .topic "projects/p/topics/news" ∅ none none false false

instance (s : Creators) (k : Nat) : Decidable (s.Undisturbed k) :=
  decidable_of_iff ((∀ n ∈ (s.phases k).drawn, n = s.kv.counter) ∧
    (s.phases k).saturated = false ∧
    ((s.phases k).naming = true → s.kv.nameRow (s.ops k).target = none))
    ⟨fun h => ⟨h.1, h.2.1, h.2.2⟩, fun h => ⟨h.counter, h.room, h.name⟩⟩

theorem creations_unique_of_serial :
    ((Run.final Creators.step (.begin .empty sameTopic) [0, 0, 0, 0, 0, 0, 1, 1]).phases
      0).returned = some 1 ∧
    Creators.UniqueCreations
      (Run.final Creators.step (.begin .empty sameTopic) [0, 0, 0, 0, 0, 0, 1, 1]) :=
  ⟨by decide +kernel, creations_unique .empty sameTopic _ (by decide +kernel)⟩

/-- Both calls find the name free and the counter at zero, and both return id `1`. -/
theorem creations_collide :
    ∃ s, s = Run.final Creators.step (.begin .empty sameTopic) [0, 0, 0, 1, 1, 1, 0, 0, 0, 1, 1, 1] ∧
      (s.phases 0).returned = some 1 ∧ (s.phases 1).returned = some 1 ∧
      ¬ Creators.UniqueCreations s := by
  have h0 : ((Run.final Creators.step (.begin .empty sameTopic)
    [0, 0, 0, 1, 1, 1, 0, 0, 0, 1, 1, 1]).phases 0).returned = some 1 := by decide +kernel
  have h1 : ((Run.final Creators.step (.begin .empty sameTopic)
    [0, 0, 0, 1, 1, 1, 0, 0, 0, 1, 1, 1]).phases 1).returned = some 1 := by decide +kernel
  refine ⟨_, rfl, h0, h1, fun h => ?_⟩
  have h01 := h.ids 0 1 1 h0 h1
  cases h01

end OpenPubusb
