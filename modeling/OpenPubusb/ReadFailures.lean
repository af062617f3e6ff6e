import OpenPubusb.CatalogOps
import OpenPubusb.Flaky
import OpenPubusb.RefineOps

/-! `publish` and the three creates over a store whose reads may fail. A read that fails
looks like an absent row, so a counter that cannot be read starts over. -/

namespace OpenPubusb

open Hoare

abbrev FlakyKv := Hoare.Flaky Kv

abbrev FlakyM := EStateM Error FlakyKv

namespace FlakyKv

/-- The id after `current`, as `next_id` of topics and snapshots computes it. -/
def satIdAfter (current : Nat) : Result Nat := .ok (satSuccU64 current)

def nextId (idAfter : Nat → Result Nat) : FlakyM Nat := do
  let current ← Flaky.read Kv.idSeq
  let next ← liftResult (idAfter (current.getD 0))
  Flaky.write (putIdSeq next)
  pure next

def resolveTopicId (fullName : String) : FlakyM Nat := do
  let _ ← liftResult (TopicName.parse fullName)
  let named ← Flaky.read fun kv => kv.topicNames.get fullName
  match named with
  | none => throw (.notFound fullName)
  | some id => pure id

def loadTopic (id : Nat) : FlakyM TopicRecord := do
  let stored ← Flaky.read fun kv => kv.topics.get id
  match stored with
  | none => throw (.internal s!"missing topic record for id {id}")
  | some r => pure r

def getTopic (fullName : String) : FlakyM TopicRecord := do
  let id ← resolveTopicId fullName
  loadTopic id

def currentTail (topicId : Nat) : FlakyM Nat := do
  let tail ← Flaky.read fun kv => kv.topicSeq.get topicId
  pure (tail.getD 0)

def nextSeq (topicId : Nat) : FlakyM Nat := do
  let tail ← currentTail topicId
  Flaky.write (putTopicSeq topicId (satSuccU64 tail))
  pure (satSuccU64 tail)

def appendAll (topicId : Nat) (nowMs expireAtMs : Int) : List PublishMessage → FlakyM (List Nat)
  | [] => pure []
  | m :: ms => do
    let seq ← nextSeq topicId
    Flaky.write (putMsg topicId seq (TopicStore.record m nowMs expireAtMs))
    let seqs ← appendAll topicId nowMs expireAtMs ms
    pure (seq :: seqs)

def append (topicId : Nat) (messages : List PublishMessage) (nowMs retentionSecs : Int) :
    FlakyM (List Nat) := do
  liftResult (TopicStore.validateBatch messages)
  appendAll topicId nowMs (TopicStore.expireAt nowMs retentionSecs) messages

def publish (topicFullName : String) (messages : List PublishMessage) (nowMs : Int) :
    FlakyM (Nat × List Nat) := do
  let record ← getTopic topicFullName
  let seqs ← append record.id messages nowMs (topicRetentionSecs record)
  pure (record.id, seqs)

def createTopic (fullName : String) (labels : SortedMap String String)
    (messageRetentionSecs : Option Int) (kmsKeyName : Option String)
    (hasSchemaSettings hasIngestionSettings : Bool) : FlakyM TopicRecord := do
  liftResult (TopicStore.checkCreate fullName messageRetentionSecs hasSchemaSettings
    hasIngestionSettings)
  let named ← Flaky.read fun kv => kv.topicNames.get fullName
  if named.isSome then throw (.alreadyExists fullName)
  else
    let id ← nextId satIdAfter
    let record : TopicRecord := ⟨id, fullName, labels, messageRetentionSecs.getD 0, kmsKeyName⟩
    Flaky.write (putTopic id record)
    Flaky.write (putTopicName fullName id)
    pure record

def createSubscriptionRecord (fullName topicFullName : String) (topicId attachSeq : Nat)
    (nowMs : Int) (opts : CreateSubscriptionOptions) : FlakyM SubscriptionRecord := do
  let maxDeliveryAttempts ←
    liftResult (SubscriptionStore.checkOptions fullName topicFullName opts)
  let named ← Flaky.read fun kv => kv.subNames.get fullName
  if named.isSome then throw (.alreadyExists fullName)
  else
    let subId ← nextId SubscriptionStore.idAfter
    let record := SubscriptionStore.newRecord fullName topicFullName topicId nowMs opts
      maxDeliveryAttempts subId
    Flaky.write (SubscriptionStore.persist record)
    Flaky.write (putCursor subId (.fresh attachSeq attachSeq))
    Flaky.write (putIdx topicId subId)
    pure record

def createSubscription (fullName topicFullName : String) (opts : CreateSubscriptionOptions)
    (nowMs : Int) : FlakyM SubscriptionRecord := do
  let topic ← getTopic topicFullName
  let attachSeq ← currentTail topic.id
  createSubscriptionRecord fullName topicFullName topic.id attachSeq nowMs opts

def getSubscription (fullName : String) : FlakyM SubscriptionRecord := do
  let named ← Flaky.read fun kv => kv.subNames.get fullName
  match named with
  | none => throw (.notFound fullName)
  | some id =>
    let stored ← Flaky.read fun kv => kv.subs.get id
    match stored with
    | none => throw (.notFound fullName)
    | some r => pure r

def loadCursor (subId : Nat) : FlakyM CursorRecord := do
  let stored ← Flaky.read fun kv => kv.cursors.get subId
  match stored with
  | none => throw (.notFound s!"subscription cursor for id {subId}")
  | some c => pure c

def oldestUndone (cursor : CursorRecord) (topicId : Nat) (kv : Kv) : Option Int :=
  ((scanPrefix kv.msg topicId).find? (fun row => ¬ cursor.isDone row.1)).map
    (fun row => row.2.publishTsMs)

def oldestUnackedPublishTsMs (subId topicId : Nat) : FlakyM (Option Int) := do
  let cursor ← loadCursor subId
  Flaky.scan (oldestUndone cursor topicId)

def createSnapshotRecord (fullName topicFullName : String) (topicId : Nat)
    (labels : SortedMap String String) (cursor : CursorRecord) (expireAtMs : Int) :
    FlakyM SnapshotRecord := do
  let _ ← liftResult (ResourceName.parse "snapshots" fullName)
  let named ← Flaky.read fun kv => kv.snapNames.get fullName
  if named.isSome then throw (.alreadyExists fullName)
  else
    let id ← nextId satIdAfter
    let record : SnapshotRecord :=
      ⟨id, fullName, topicFullName, topicId, labels, cursor, expireAtMs⟩
    Flaky.write (putSnap id record)
    Flaky.write (putSnapName fullName id)
    pure record

def createSnapshot (fullName subscriptionFullName : String) (labels : SortedMap String String)
    (nowMs : Int) : FlakyM SnapshotRecord := do
  let sub ← getSubscription subscriptionFullName
  let cursor ← loadCursor sub.id
  let oldestUnacked ← oldestUnackedPublishTsMs sub.id sub.topicId
  let expireAtMs ← liftResult (computeExpireAtMs nowMs oldestUnacked)
  createSnapshotRecord fullName sub.topic sub.topicId labels cursor expireAtMs

end FlakyKv

section Mirrors

open FlakyKv Flaky

variable {kv : Kv} {s : Engine}

theorem mirrors_liftBind {τ α β : Type} {view : τ → Kv} {t : τ} {r : Result α} {f : α → FlakyM β}
    {f' : α → EStateM Error τ β} (h : ∀ a, MirrorsAt view t (f a) (f' a)) :
    MirrorsAt view t (liftResult r >>= f) (liftResult r >>= f') := by
  cases r with
  | ok a => exact h a
  | error e => exact .throw e

theorem mirrors_nextId {idAfter : Nat → Result Nat}
    (h : idAfter kv.counter = .ok (kv.counter + 1)) :
    MirrorsAt id kv (FlakyKv.nextId idAfter) OpenPubusb.nextId := by
  refine .get (.read ?_)
  have hid : idAfter ((Kv.idSeq (id kv)).getD 0) = .ok (kv.idSeq.getD 0 + 1) := h
  simp only [hid, liftResult, pure_bind]
  exact (Flaky.MirrorsAt.write _).bind fun _ _ _ => .pure _

theorem satIdAfter_of_lt {n : Nat} (h : n < u64Max) : satIdAfter n = .ok (n + 1) := by
  rw [satIdAfter, satSuccU64_of_lt h]

theorem mirrors_getTopic (fullName : String) {β : Type} {f : TopicRecord → FlakyM β}
    {f' : TopicRecord → KvM β}
    (h : ∀ r, TopicStore.get kv fullName = .ok r → MirrorsAt id kv (f r) (f' r)) :
    MirrorsAt id kv (getTopic fullName >>= f) (liftResult (TopicStore.get kv fullName) >>= f') := by
  refine .bind ?_ fun r u hu => ?_
  · unfold getTopic resolveTopicId TopicStore.get TopicStore.resolveId
    cases TopicName.parse fullName with
    | error e => exact .throw e
    | ok p =>
      simp only [liftResult, pure_bind, bind_assoc]
      refine .read ?_
      simp only [id_eq]
      cases hid : kv.topicNames.get fullName with
      | none => exact .throw _
      | some id =>
        simp only [pure_bind, loadTopic, TopicStore.loadRecord]
        refine .read ?_
        simp only [id_eq]
        cases hr : kv.topics.get id with
        | none => exact .throw _
        | some r => exact .pure r
  · cases hr : TopicStore.get kv fullName with
    | ok r' =>
      rw [hr] at hu
      cases hu
      exact h r hr
    | error e =>
      rw [hr] at hu
      cases hu

theorem mirrors_nextSeq {topicId : Nat} (h : TopicStore.currentTail kv topicId < u64Max) :
    MirrorsAt id kv (FlakyKv.nextSeq topicId) (TopicStore.nextSeq topicId) := by
  simp only [FlakyKv.nextSeq, FlakyKv.currentTail, bind_assoc, pure_bind]
  refine .read (.get ?_)
  have hsucc : satSuccU64 (((id kv).topicSeq.get topicId).getD 0) =
      TopicStore.currentTail kv topicId + 1 := satSuccU64_of_lt h
  rw [hsucc]
  exact (Flaky.MirrorsAt.write _).bind fun _ _ _ => .pure _

theorem mirrors_appendAll (topicId : Nat) (nowMs expireAtMs : Int) (ms : List PublishMessage)
    (h : TopicStore.currentTail kv topicId + ms.length < 2 ^ 64) :
    MirrorsAt id kv (FlakyKv.appendAll topicId nowMs expireAtMs ms)
      (TopicStore.appendAll topicId nowMs expireAtMs ms) := by
  induction ms generalizing kv with
  | nil => exact .pure _
  | cons m ms ih =>
    rw [List.length_cons] at h
    refine (mirrors_nextSeq (by unfold u64Max; omega)).bind fun seq kv₁ h₁ => ?_
    refine (Flaky.MirrorsAt.write _).bind fun _ kv₂ h₂ => ?_
    have hcount : Ensures (TopicStore.nextSeq topicId) kv (fun _ t =>
        TopicStore.currentTail t topicId = TopicStore.currentTail kv topicId + 1)
        (fun _ _ => True) := by
      simp only [TopicStore.nextSeq, putTopicSeq, ensures_bind, ensures_estateGet, ensures_pure,
        ensures_kvWrite, TopicStore.currentTail, SortedMap.get_insert_self, Option.getD_some,
        implies_true, and_true]
    have hput : Ensures (putMsg topicId seq (TopicStore.record m nowMs expireAtMs)) kv₁ (fun _ t =>
        TopicStore.currentTail t topicId = TopicStore.currentTail kv₁ topicId)
        (fun _ _ => True) := by
      simp only [putMsg, ensures_kvWrite, TopicStore.currentTail, implies_true, and_true]
    have htail := (hput.of_ok h₂).trans (hcount.of_ok h₁)
    exact (ih (by omega)).bind fun _ _ _ => .pure _

/-- The counter of the topic has room for the messages. -/
def LogRoom (kv : Kv) (topic : String) (ms : List PublishMessage) : Prop :=
  ∀ r, TopicStore.get kv topic = .ok r → TopicStore.currentTail kv r.id + ms.length < 2 ^ 64

/-- Without a failed read, and with room in the counters, the calls are those of the service. -/
theorem mirrors_publish {topic : String} {ms : List PublishMessage} (h : LogRoom s.kv topic ms)
    (nowMs : Int) :
    MirrorsAt Engine.kv s (FlakyKv.publish topic ms nowMs)
      (PubSubService.publish topic ms nowMs) := by
  refine .focus (fun _ _ => rfl) (.get (mirrors_getTopic topic fun r hr => ?_))
  simp only [FlakyKv.append, TopicStore.append]
  refine .bind ?_ fun _ _ _ => .pure _
  cases TopicStore.validateBatch ms with
  | error e => exact .throw e
  | ok _ => exact mirrors_appendAll _ _ _ _ (h r hr)

theorem mirrors_createTopic (fullName : String) (labels : SortedMap String String)
    (messageRetentionSecs : Option Int) (kmsKeyName : Option String) (schema ingestion : Bool)
    (h : s.kv.counter < u64Max) :
    MirrorsAt Engine.kv s
      (FlakyKv.createTopic fullName labels messageRetentionSecs kmsKeyName schema ingestion)
      (PubSubService.createTopic fullName labels messageRetentionSecs kmsKeyName schema
        ingestion) := by
  refine .focus (fun _ _ => rfl) (mirrors_liftBind fun _ => ?_)
  refine .read (.get (.ite (.throw _) ?_))
  refine (mirrors_nextId (satIdAfter_of_lt h)).bind fun _ _ _ => ?_
  refine (Flaky.MirrorsAt.write _).bind fun _ _ _ => ?_
  exact (Flaky.MirrorsAt.write _).bind fun _ _ _ => .pure _

theorem mirrors_createSubscription (fullName topic : String) (opts : CreateSubscriptionOptions)
    (nowMs : Int) (h : s.kv.counter < u64Max) :
    MirrorsAt Engine.kv s (FlakyKv.createSubscription fullName topic opts nowMs)
      (PubSubService.createSubscription fullName topic opts nowMs) := by
  refine .focus (fun _ _ => rfl) (.get (mirrors_getTopic topic fun r _ => ?_))
  simp only [FlakyKv.currentTail, bind_assoc, pure_bind]
  refine .read ?_
  refine mirrors_liftBind fun _ => ?_
  refine .read (.get (.ite (.throw _) ?_))
  refine (mirrors_nextId (SubscriptionStore.idAfter_of_lt h)).bind fun _ _ _ => ?_
  refine (Flaky.MirrorsAt.write _).bind fun _ _ _ => ?_
  refine (Flaky.MirrorsAt.write _).bind fun _ _ _ => ?_
  exact (Flaky.MirrorsAt.write _).bind fun _ _ _ => .pure _

theorem mirrors_loadCursor (subId : Nat) :
    MirrorsAt Engine.kv s (FlakyKv.loadCursor subId) (OpenPubusb.loadCursor subId) := by
  refine .read (.get ?_)
  cases s.kv.cursors.get subId with
  | none => exact .throw _
  | some c => exact .pure c

theorem loadCursor_same {subId : Nat} {c : CursorRecord} {u : Engine}
    (h : OpenPubusb.loadCursor subId s = .ok c u) : u = s := by
  have hkeeps : Ensures (OpenPubusb.loadCursor subId) s (fun _ t => t = s) (fun _ t => t = s) := by
    simp only [OpenPubusb.loadCursor, ensures_bind, ensures_get]
    cases s.kv.cursors.get subId with
    | none => rfl
    | some c => rfl
  exact hkeeps.of_ok h

theorem mirrors_createSnapshot (fullName sub : String) (labels : SortedMap String String)
    (nowMs : Int) (h : s.kv.counter < u64Max) :
    MirrorsAt Engine.kv s (FlakyKv.createSnapshot fullName sub labels nowMs)
      (PubSubService.createSnapshot fullName sub labels nowMs) := by
  simp only [FlakyKv.createSnapshot, FlakyKv.getSubscription, bind_assoc]
  refine .read (.get ?_)
  unfold SubscriptionStore.get
  cases s.kv.subNames.get sub with
  | none => exact .throw _
  | some id =>
    simp only [bind_assoc]
    refine .read ?_
    unfold SubscriptionStore.load
    cases s.kv.subs.get id with
    | none => exact .throw _
    | some r =>
      simp only [liftResult, pure_bind]
      refine (mirrors_loadCursor r.id).bind fun c u hu => ?_
      rw [loadCursor_same hu]
      simp only [FlakyKv.oldestUnackedPublishTsMs, OpenPubusb.oldestUnackedPublishTsMs, bind_assoc]
      refine (mirrors_loadCursor r.id).bind fun c' u hu => ?_
      rw [loadCursor_same hu]
      refine .scan (.get ?_)
      simp only [pure_bind]
      refine mirrors_liftBind fun e => ?_
      refine .focus (fun _ _ => rfl) (mirrors_liftBind fun _ => ?_)
      refine .read (.get (.ite (.throw _) ?_))
      refine (mirrors_nextId (satIdAfter_of_lt h)).bind fun _ _ _ => ?_
      refine (Flaky.MirrorsAt.write _).bind fun _ _ _ => ?_
      exact (Flaky.MirrorsAt.write _).bind fun _ _ _ => .pure _

end Mirrors

section Seqs

/-- The seqs of `n` messages, when the reads of the counter that fail are `lost`. -/
def takenSeqs (lost : Nat → Bool) (tail : Nat) : Nat → List Nat
  | 0 => []
  | n + 1 =>
    let seq := (if lost 0 then 0 else tail) + 1
    seq :: takenSeqs (fun i => lost (i + 1)) seq n

/-- The `i`-th read fails, and there was a count to see. -/
def Restarts (lost : Nat → Bool) (tail i : Nat) : Prop := lost i = true ∧ (i = 0 → 0 < tail)

/-- The count goes on above `tail`, or starts over once: after `i` messages, and the seqs
it takes from then on do not reach those of before. None of them is in use. -/
def SeqsFree (free : Nat → Prop) (lost : Nat → Bool) (tail n : Nat) : Prop :=
  (∀ i < n, ¬ Restarts lost tail i) ∧ (∀ q, tail < q → q ≤ tail + n → free q) ∨
    ∃ i < n, Restarts lost tail i ∧ (∀ j < n, Restarts lost tail j → j = i) ∧
      (i = 0 ∨ n - i ≤ tail) ∧ (∀ q, tail < q → q ≤ tail + i → free q) ∧
      ∀ q, 0 < q → q ≤ n - i → free q

variable {lost : Nat → Bool} {tail n : Nat}

theorem takenSeqs_split {i : Nat} (h : ∀ j < i, ¬ Restarts lost tail j) (m : Nat) :
    takenSeqs lost tail (i + m) =
      List.range' (tail + 1) i ++ takenSeqs (fun j => lost (i + j)) (tail + i) m := by
  induction i generalizing lost tail with
  | zero => simp
  | succ i ih =>
    have hseq : (if lost 0 then 0 else tail) = tail := by
      by_cases hl : lost 0 = true
      · have hzero : ¬ 0 < tail := fun hpos => h 0 (Nat.succ_pos i) ⟨hl, fun _ => hpos⟩
        rw [if_pos hl]
        omega
      · rw [if_neg hl]
    have hrest : ∀ j < i, ¬ Restarts (fun k => lost (k + 1)) (tail + 1) j :=
      fun j hj hr => h (j + 1) (by omega) ⟨hr.1, fun h0 => by omega⟩
    have hshift : (fun j => lost (i + j + 1)) = fun j => lost (i + 1 + j) :=
      funext fun j => congrArg lost (by omega)
    have hsum : i + 1 + m = i + m + 1 := by omega
    rw [hsum, takenSeqs, hseq]
    rw [ih hrest, List.range'_succ, hshift, Nat.add_assoc tail 1 i, Nat.add_comm 1 i]
    rfl

theorem takenSeqs_eq (h : ∀ i < n, ¬ Restarts lost tail i) :
    takenSeqs lost tail n = List.range' (tail + 1) n := by
  have hsplit := takenSeqs_split h 0
  simpa only [Nat.add_zero, takenSeqs, List.append_nil] using hsplit

theorem one_mem_takenSeqs {j : Nat} (hj : j < n) (hl : lost j = true) :
    1 ∈ takenSeqs lost tail n := by
  induction n generalizing lost tail j with
  | zero => omega
  | succ n ih =>
    cases j with
    | zero =>
      rw [takenSeqs, if_pos hl]
      exact List.mem_cons_self
    | succ j =>
      refine List.mem_cons_of_mem _ (@ih _ _ j (by omega) ?_)
      exact hl

theorem takenSeqs_restart {i : Nat} (hi : i < n) (hl : lost i = true)
    (h : ∀ j < i, ¬ Restarts lost tail j) :
    takenSeqs lost tail n = List.range' (tail + 1) i ++
      1 :: takenSeqs (fun j => lost (i + 1 + j)) 1 (n - i - 1) := by
  have hsplit := takenSeqs_split h (n - i)
  have hsum : i + (n - i) = n := by omega
  have hsucc : n - i = (n - i - 1) + 1 := by omega
  have hshift : (fun j => lost (i + (j + 1))) = fun j => lost (i + 1 + j) :=
    funext fun j => congrArg lost (by omega)
  rw [hsum, hsucc, takenSeqs] at hsplit
  simp only [Nat.add_zero, hl, if_true, hshift] at hsplit
  exact hsplit

theorem takenSeqs_once {m : Nat} (hl : ∀ j < m, lost j = false) :
    (1 :: takenSeqs lost 1 m) = List.range' (0 + 1) (m + 1) := by
  have hrest : takenSeqs lost 1 m = List.range' 2 m := by
    refine takenSeqs_eq fun j hj hr => ?_
    have hlost := hl j hj
    rw [hr.1] at hlost
    cases hlost
  rw [hrest, List.range'_succ]

theorem fresh_range_iff {free : Nat → Prop} {a m : Nat} :
    (∀ q ∈ List.range' (a + 1) m, free q) ↔ ∀ q, a < q → q ≤ a + m → free q := by
  simp only [List.mem_range'_1]
  exact ⟨fun h q hlo hhi => h q ⟨by omega, by omega⟩, fun h q hq => h q (by omega) (by omega)⟩

theorem takenSeqs_fresh_iff {free : Nat → Prop} :
    ((takenSeqs lost tail n).Nodup ∧ ∀ q ∈ takenSeqs lost tail n, free q) ↔
      SeqsFree free lost tail n := by
  unfold SeqsFree
  by_cases hnone : ∀ i < n, ¬ Restarts lost tail i
  · have hother : ¬ ∃ i < n, Restarts lost tail i ∧ (∀ j < n, Restarts lost tail j → j = i) ∧
        (i = 0 ∨ n - i ≤ tail) ∧ (∀ q, tail < q → q ≤ tail + i → free q) ∧
        ∀ q, 0 < q → q ≤ n - i → free q :=
      fun ⟨i, hi, hr, _⟩ => hnone i hi hr
    rw [takenSeqs_eq hnone, fresh_range_iff, or_iff_left hother]
    exact ⟨fun h => ⟨hnone, h.2⟩, fun h => ⟨List.nodup_range', h.2⟩⟩
  · rw [or_iff_right fun h => hnone h.1]
    constructor
    · rintro ⟨hnodup, hfree⟩
      have hex : ∃ i, i < n ∧ Restarts lost tail i := by
        by_contra hno
        exact hnone fun i hi hr => hno ⟨i, hi, hr⟩
      classical
      obtain ⟨hi, hr⟩ := Nat.find_spec hex
      have hmin : ∀ j < Nat.find hex, ¬ Restarts lost tail j :=
        fun j hj hrj => Nat.find_min hex hj ⟨by omega, hrj⟩
      generalize Nat.find hex = i at hi hr hmin
      have heq := takenSeqs_restart hi hr.1 hmin
      rw [heq] at hnodup hfree
      obtain ⟨_, htail, hdisjoint⟩ := List.nodup_append.mp hnodup
      have hlater : ∀ j < n - i - 1, lost (i + 1 + j) = false := by
        intro j hj
        by_contra hl
        have hone := @one_mem_takenSeqs (fun j => lost (i + 1 + j)) 1 _ _ hj (by simpa using hl)
        exact (List.nodup_cons.mp htail).1 hone
      have hlist := takenSeqs_once hlater
      have hsucc : n - i - 1 + 1 = n - i := by omega
      rw [hsucc] at hlist
      rw [hlist] at hfree hdisjoint
      refine ⟨i, hi, hr, fun j hj hrj => ?_, ?_, ?_, ?_⟩
      · by_contra hne
        have hgt : i < j := by
          by_contra hle
          exact hmin j (by omega) hrj
        have hlost := hlater (j - i - 1) (by omega)
        have hidx : i + 1 + (j - i - 1) = j := by omega
        rw [hidx, hrj.1] at hlost
        cases hlost
      · by_contra hover
        have hmem : tail + 1 ∈ List.range' (tail + 1) i := List.mem_range'_1.mpr (by omega)
        have hmem' : tail + 1 ∈ List.range' (0 + 1) (n - i) := List.mem_range'_1.mpr (by omega)
        exact hdisjoint _ hmem _ hmem' rfl
      · exact fresh_range_iff.mp fun q hq => hfree q (List.mem_append_left _ hq)
      · intro q hlo hhi
        exact hfree q (List.mem_append_right _ (List.mem_range'_1.mpr (by omega)))
    · rintro ⟨i, hi, hr, hone, hreach, hbelow, habove⟩
      have hmin : ∀ j < i, ¬ Restarts lost tail j :=
        fun j hj hrj => absurd (hone j (by omega) hrj) (by omega)
      have hlater : ∀ j < n - i - 1, lost (i + 1 + j) = false := by
        intro j hj
        by_contra hl
        have := hone (i + 1 + j) (by omega) ⟨by simpa using hl, fun h0 => by omega⟩
        omega
      have hlist := takenSeqs_once hlater
      have hsucc : n - i - 1 + 1 = n - i := by omega
      rw [hsucc] at hlist
      rw [takenSeqs_restart hi hr.1 hmin, hlist]
      refine ⟨List.nodup_append.mpr ⟨List.nodup_range', List.nodup_range', ?_⟩, fun q hq => ?_⟩
      · intro a ha b hb
        have ha' := List.mem_range'_1.mp ha
        have hb' := List.mem_range'_1.mp hb
        omega
      · rcases List.mem_append.mp hq with hq | hq
        · exact fresh_range_iff.mpr hbelow q hq
        · have hq' := List.mem_range'_1.mp hq
          exact habove q (by omega) (by omega)

end Seqs

section Publish

open FlakyKv

variable {s : FlakyKv}

theorem topicGet_eq {fullName : String} {p : TopicName} (kv : Kv)
    (hp : TopicName.parse fullName = .ok p) : TopicStore.get kv fullName =
      match kv.topicNames.get fullName with
      | none => .error (.notFound fullName)
      | some id => TopicStore.loadRecord kv id := by
  unfold TopicStore.get TopicStore.resolveId
  rw [hp]
  cases kv.topicNames.get fullName <;> rfl

theorem ensures_getTopic {fullName : String} {Q : TopicRecord → FlakyKv → Prop}
    {E : Error → FlakyKv → Prop} (hE : ∀ e n, E e { s with reads := n }) :
    Ensures (getTopic fullName) s Q E ↔
      ∀ r, TopicStore.get s.store fullName = .ok r → s.sees s.reads = true →
        s.sees (s.reads + 1) = true → Q r { s with reads := s.reads + 2 } := by
  simp only [getTopic, resolveTopicId, ensures_bind, ensures_liftResult]
  cases hp : TopicName.parse fullName with
  | error e =>
    have hget : TopicStore.get s.store fullName = .error e := by
      unfold TopicStore.get TopicStore.resolveId
      rw [hp]
      rfl
    rw [hget]
    refine ⟨fun _ r hr => (by cases hr), fun _ => ⟨fun _ h => (by cases h), fun _ _ => ?_⟩⟩
    exact hE _ s.reads
  | ok p =>
    rw [topicGet_eq s.store hp]
    simp only [Except.ok.injEq, forall_eq', reduceCtorEq, false_implies, implies_true, and_true]
    rw [← ensures_bind, Flaky.ensures_lookup]
    swap
    · exact hE _ _
    cases hid : s.store.topicNames.get fullName with
    | none => exact ⟨fun _ r hr => (by cases hr), fun _ id h => (by cases h)⟩
    | some id =>
      simp only [Option.some.injEq, forall_eq', ensures_pure, loadTopic, TopicStore.loadRecord]
      rw [Flaky.ensures_lookup]
      swap
      · exact hE _ _
      cases s.store.topics.get id with
      | none => exact ⟨fun _ r hr => (by cases hr), fun _ _ r h => (by cases h)⟩
      | some r =>
        refine ⟨fun h r' hr hsee hsee' => ?_, fun h hsee r' hr hsee' => ?_⟩
        · cases hr
          exact h hsee r rfl hsee'
        · cases hr
          exact h r rfl hsee hsee'

theorem ensures_appendAll_taken (topicId : Nat) (nowMs expireAtMs : Int)
    (ms : List PublishMessage) (hh : s.store.Healthy)
    (hroom : TopicStore.currentTail s.store topicId + ms.length < 2 ^ 64) :
    Ensures (FlakyKv.appendAll topicId nowMs expireAtMs ms) s
      (fun seqs t => seqs = takenSeqs (fun i => !s.sees (s.reads + i))
          (TopicStore.currentTail s.store topicId) ms.length ∧
        ∀ key, (key.id = topicId → key.seq ∉ seqs) →
          t.store.msg.get key = s.store.msg.get key) (fun _ _ => False) := by
  induction ms generalizing s with
  | nil => exact ⟨rfl, fun _ _ => rfl⟩
  | cons m ms ih =>
    rw [List.length_cons] at hroom
    simp only [FlakyKv.appendAll, FlakyKv.nextSeq, FlakyKv.currentTail, ensures_bind,
      Flaky.ensures_read, ensures_pure, Flaky.ensures_write, putTopicSeq, putMsg]
    refine (ensures_kvWrite_healthy hh).mpr ((ensures_kvWrite_healthy ?_).mpr ?_)
    · exact fun n => hh n
    have hseq : (if s.sees s.reads = true then s.store.topicSeq.get topicId else none).getD 0 =
        if !s.sees s.reads then 0 else TopicStore.currentTail s.store topicId := by
      cases s.sees s.reads <;> rfl
    rw [hseq]
    have htaken : takenSeqs (fun i => !s.sees (s.reads + i))
        (TopicStore.currentTail s.store topicId) (m :: ms).length =
          ((if !s.sees s.reads then 0 else TopicStore.currentTail s.store topicId) + 1) ::
            takenSeqs (fun i => !s.sees (s.reads + (i + 1)))
              ((if !s.sees s.reads then 0 else TopicStore.currentTail s.store topicId) + 1)
              ms.length := rfl
    rw [htaken]
    have hle : (if !s.sees s.reads then 0 else TopicStore.currentTail s.store topicId) +
        (ms.length + 1) < 2 ^ 64 := by
      split_ifs <;> omega
    generalize (if !s.sees s.reads then 0 else TopicStore.currentTail s.store topicId) = tail
      at hle ⊢
    have hsucc : satSuccU64 tail = tail + 1 := satSuccU64_of_lt (by unfold u64Max; omega)
    rw [hsucc]
    have htail : TopicStore.currentTail { s.store.tick.tick with
        topicSeq := s.store.topicSeq.insert topicId (tail + 1)
        msg := s.store.msg.insert ⟨topicId, tail + 1⟩ (TopicStore.record m nowMs expireAtMs) }
        topicId = tail + 1 := by
      simp only [TopicStore.currentTail, SortedMap.get_insert, if_true, Option.getD_some]
    refine (@ih ⟨{ s.store.tick.tick with
        topicSeq := s.store.topicSeq.insert topicId (tail + 1)
        msg := s.store.msg.insert ⟨topicId, tail + 1⟩ (TopicStore.record m nowMs expireAtMs) },
      s.sees, s.reads + 1⟩ (fun n => hh n) ?_).mono (fun seqs t h => ?_) (fun _ _ h => h)
    · exact (congrArg (· + ms.length) htail).trans_lt (by omega)
    obtain ⟨hseqs, hkept⟩ := h
    have hshift : (fun i => !s.sees (s.reads + 1 + i)) = fun i => !s.sees (s.reads + (i + 1)) :=
      funext fun i => by rw [Nat.add_assoc, Nat.add_comm 1 i]
    simp only [htail, hshift] at hseqs
    refine ⟨by rw [hseqs], fun key hkey => ?_⟩
    rw [hkept key fun hid => fun hmem => hkey hid (List.mem_cons_of_mem _ hmem)]
    refine SortedMap.get_insert_ne _ _ fun hk => ?_
    subst hk
    exact hkey rfl List.mem_cons_self

/-- The rows that are written are new, each of its own message; all others stay. -/
structure NewRows (topicId : Nat) (seqs : List Nat) (kv kv' : Kv) : Prop where
  distinct : seqs.Nodup
  unused : ∀ q ∈ seqs, kv.msg.get ⟨topicId, q⟩ = none
  kept : ∀ key, (key.id = topicId → key.seq ∉ seqs) → kv'.msg.get key = kv.msg.get key

/-- The call overwrites no message. -/
def PublishKeeps (s : FlakyKv) (topic : String) (ms : List PublishMessage) (nowMs : Int) : Prop :=
  Ensures (FlakyKv.publish topic ms nowMs) s (fun r t => NewRows r.1 r.2 s.store t.store)
    (fun _ t => t.store.msg = s.store.msg)

/-- The call gets nowhere, or the seqs that its reads of the counter lead to are free. -/
def PublishHarmless (s : FlakyKv) (topic : String) (ms : List PublishMessage) : Prop :=
  ∀ r, TopicStore.get s.store topic = .ok r → s.sees s.reads = true →
    s.sees (s.reads + 1) = true → TopicStore.validateBatch ms = .ok () →
    SeqsFree (fun q => s.store.msg.get ⟨r.id, q⟩ = none) (fun i => !s.sees (s.reads + 2 + i))
      (TopicStore.currentTail s.store r.id) ms.length

theorem publishKeeps_iff (hh : s.store.Healthy) {topic : String} {ms : List PublishMessage}
    (hroom : LogRoom s.store topic ms) (nowMs : Int) :
    PublishKeeps s topic ms nowMs ↔ PublishHarmless s topic ms := by
  unfold PublishKeeps PublishHarmless
  simp only [FlakyKv.publish, FlakyKv.append, ensures_bind, ensures_liftResult, ensures_pure]
  rw [ensures_getTopic fun _ _ => rfl]
  refine forall_congr' fun r => forall_congr' fun hr => forall_congr' fun _ =>
    forall_congr' fun _ => ?_
  simp only [implies_true, and_true]
  have hunit : ∀ P : Unit → Prop, (∀ u, TopicStore.validateBatch ms = .ok u → P u) ↔
      (TopicStore.validateBatch ms = .ok () → P ()) := fun P => ⟨fun h => h (), fun h _ => h⟩
  rw [hunit]
  refine forall_congr' fun _ => ?_
  rw [← takenSeqs_fresh_iff]
  have hrun := @ensures_appendAll_taken { s with reads := s.reads + 2 } r.id nowMs
    (TopicStore.expireAt nowMs (topicRetentionSecs r)) ms hh (hroom r hr)
  obtain ⟨seqs, t, hok, hseqs, hkept⟩ := hrun.returns
  unfold Ensures
  rw [hok]
  simp only at hseqs ⊢
  rw [← hseqs]
  exact ⟨fun h => ⟨h.distinct, h.unused⟩, fun h => ⟨h.1, h.2, hkept⟩⟩

end Publish

section Creates

open FlakyKv

variable {s : FlakyKv}

/-- The record is put at an id that none had, and the others stay. -/
structure NewRecord {ρ : Type} (table : Kv → SortedMap Nat ρ) (id : Nat) (kv kv' : Kv) : Prop where
  unused : (table kv).get id = none
  kept : ∀ i, i ≠ id → (table kv').get i = (table kv).get i

theorem newRecord_iff {ρ : Type} {table : Kv → SortedMap Nat ρ} {id : Nat} {new : ρ} {kv kv' : Kv}
    (h : table kv' = (table kv).insert id new) :
    NewRecord table id kv kv' ↔ (table kv).get id = none := by
  refine ⟨fun hn => hn.unused, fun hn => ⟨hn, fun i hi => ?_⟩⟩
  rw [h]
  exact SortedMap.get_insert_ne _ _ hi

/-- The id that the `n`-th read of the id counter leads to, if there is one left, is free: the
one after the counter, or the first when the read fails. -/
def IdHarmless {ρ : Type} (s : FlakyKv) (idAfter : Nat → Result Nat) (n : Nat)
    (records : SortedMap Nat ρ) : Prop :=
  ∀ id, idAfter (if s.sees n then s.store.counter else 0) = .ok id → records.get id = none

def takeId (s : FlakyKv) (id : Nat) : FlakyKv :=
  ⟨{ s.store.tick with idSeq := some id }, s.sees, s.reads + 1⟩

theorem ensures_nextId (hh : s.store.Healthy) {idAfter : Nat → Result Nat}
    {Q : Nat → FlakyKv → Prop} {E : Error → FlakyKv → Prop}
    (hE : ∀ e, E e { s with reads := s.reads + 1 }) :
    Ensures (FlakyKv.nextId idAfter) s Q E ↔
      ∀ id, idAfter (if s.sees s.reads then s.store.counter else 0) = .ok id →
        Q id (takeId s id) := by
  have hid : (if s.sees s.reads = true then s.store.idSeq else none).getD 0 =
      if s.sees s.reads then s.store.counter else 0 := by
    cases s.sees s.reads <;> rfl
  simp only [FlakyKv.nextId, ensures_bind, ensures_liftResult, Flaky.ensures_read,
    Flaky.ensures_write, ensures_pure, putIdSeq, hid, hE, implies_true, and_true]
  refine forall_congr' fun id => forall_congr' fun _ => ?_
  rw [ensures_kvWrite_healthy]
  · rfl
  · exact fun n => hh n

theorem not_isSome_iff {α : Type} {n : Nat} {x : Option α} :
    ¬ (if s.sees n = true then x else none).isSome = true ↔ (s.sees n = true → x = none) := by
  cases s.sees n <;> cases x <;> simp

theorem forall_ok_unit {r : Result Unit} {P : Unit → Prop} :
    (∀ u, r = .ok u → P u) ↔ (r = .ok () → P ()) := ⟨fun h => h (), fun h _ => h⟩

/-- The call overwrites no record of a topic, a subscription or a snapshot. -/
def CreateTopicKeeps (s : FlakyKv) (fullName : String) (labels : SortedMap String String)
    (messageRetentionSecs : Option Int) (kmsKeyName : Option String) (schema ingestion : Bool) :
    Prop :=
  Ensures (FlakyKv.createTopic fullName labels messageRetentionSecs kmsKeyName schema ingestion) s
    (fun r t => NewRecord Kv.topics r.id s.store t.store ∧ t.store.subs = s.store.subs ∧
      t.store.snaps = s.store.snaps)
    (fun _ t => t.store = s.store)

def CreateTopicHarmless (s : FlakyKv) (fullName : String) (messageRetentionSecs : Option Int)
    (schema ingestion : Bool) : Prop :=
  TopicStore.checkCreate fullName messageRetentionSecs schema ingestion = .ok () →
    (s.sees s.reads = true → s.store.topicNames.get fullName = none) →
    IdHarmless s satIdAfter (s.reads + 1) s.store.topics

theorem createTopicKeeps_iff (hh : s.store.Healthy) (fullName : String)
    (labels : SortedMap String String) (messageRetentionSecs : Option Int)
    (kmsKeyName : Option String) (schema ingestion : Bool) :
    CreateTopicKeeps s fullName labels messageRetentionSecs kmsKeyName schema ingestion ↔
      CreateTopicHarmless s fullName messageRetentionSecs schema ingestion := by
  unfold CreateTopicKeeps CreateTopicHarmless
  simp only [FlakyKv.createTopic, ensures_bind, ensures_liftResult, Flaky.ensures_read,
    ensures_ite, ensures_throw, not_isSome_iff, implies_true, true_and, and_true, forall_ok_unit]
  refine forall_congr' fun _ => forall_congr' fun _ => ?_
  refine (@ensures_nextId { s with reads := s.reads + 1 } hh _ _ _ ?_).trans ?_
  · exact fun _ => rfl
  refine forall_congr' fun id => forall_congr' fun _ => ?_
  simp only [Flaky.ensures_write, putTopic, putTopicName, ensures_pure]
  rw [ensures_kvWrite_healthy, ensures_kvWrite_healthy]
  · exact (and_iff_left ⟨rfl, rfl⟩).trans (newRecord_iff rfl)
  · exact fun n => hh n
  · exact fun n => hh n

def CreateSubscriptionKeeps (s : FlakyKv) (fullName topic : String)
    (opts : CreateSubscriptionOptions) (nowMs : Int) : Prop :=
  Ensures (FlakyKv.createSubscription fullName topic opts nowMs) s
    (fun r t => NewRecord Kv.subs r.id s.store t.store ∧ t.store.topics = s.store.topics ∧
      t.store.snaps = s.store.snaps)
    (fun _ t => t.store = s.store)

def CreateSubscriptionHarmless (s : FlakyKv) (fullName topic : String)
    (opts : CreateSubscriptionOptions) : Prop :=
  ∀ r, TopicStore.get s.store topic = .ok r → s.sees s.reads = true →
    s.sees (s.reads + 1) = true →
    ∀ d, SubscriptionStore.checkOptions fullName topic opts = .ok d →
    (s.sees (s.reads + 3) = true → s.store.subNames.get fullName = none) →
    IdHarmless s SubscriptionStore.idAfter (s.reads + 4) s.store.subs

theorem createSubscriptionKeeps_iff (hh : s.store.Healthy) (fullName topic : String)
    (opts : CreateSubscriptionOptions) (nowMs : Int) :
    CreateSubscriptionKeeps s fullName topic opts nowMs ↔
      CreateSubscriptionHarmless s fullName topic opts := by
  unfold CreateSubscriptionKeeps CreateSubscriptionHarmless
  simp only [FlakyKv.createSubscription]
  rw [ensures_bind, ensures_getTopic fun _ _ => rfl]
  simp only [FlakyKv.currentTail, createSubscriptionRecord, ensures_bind, ensures_liftResult,
    Flaky.ensures_read, ensures_pure, ensures_ite, ensures_throw, not_isSome_iff, implies_true,
    true_and, and_true]
  refine forall_congr' fun r => forall_congr' fun _ => forall_congr' fun _ => forall_congr' fun _ =>
    forall_congr' fun d => forall_congr' fun _ => forall_congr' fun _ => ?_
  refine (@ensures_nextId { s with reads := s.reads + 4 } hh _ _ _ ?_).trans ?_
  · exact fun _ => rfl
  refine forall_congr' fun id => forall_congr' fun _ => ?_
  simp only [Flaky.ensures_write, SubscriptionStore.persist, putSub, putSubName, putCursor, putIdx,
    ensures_bind]
  rw [ensures_kvWrite_healthy, ensures_kvWrite_healthy, ensures_kvWrite_healthy,
    ensures_kvWrite_healthy]
  · exact (and_iff_left ⟨rfl, rfl⟩).trans (newRecord_iff rfl)
  · exact fun n => hh n
  · exact fun n => hh n
  · exact fun n => hh n
  · exact fun n => hh n

def CreateSnapshotKeeps (s : FlakyKv) (fullName sub : String) (labels : SortedMap String String)
    (nowMs : Int) : Prop :=
  Ensures (FlakyKv.createSnapshot fullName sub labels nowMs) s
    (fun r t => NewRecord Kv.snaps r.id s.store t.store ∧ t.store.topics = s.store.topics ∧
      t.store.subs = s.store.subs)
    (fun _ t => t.store = s.store)

def CreateSnapshotHarmless (s : FlakyKv) (fullName sub : String) (nowMs : Int) : Prop :=
  ∀ id, s.store.subNames.get sub = some id → s.sees s.reads = true →
    ∀ r, s.store.subs.get id = some r → s.sees (s.reads + 1) = true →
    ∀ c, s.store.cursors.get r.id = some c → s.sees (s.reads + 2) = true →
      s.sees (s.reads + 3) = true →
    ∀ e, computeExpireAtMs nowMs (oldestUndone c r.topicId s.store) = .ok e →
    ∀ p, ResourceName.parse "snapshots" fullName = .ok p →
    (s.sees (s.reads + 4) = true → s.store.snapNames.get fullName = none) →
    IdHarmless s satIdAfter (s.reads + 5) s.store.snaps

theorem ensures_loadCursor {subId : Nat} {Q : CursorRecord → FlakyKv → Prop}
    {E : Error → FlakyKv → Prop} (hE : ∀ e n, E e { s with reads := n }) :
    Ensures (FlakyKv.loadCursor subId) s Q E ↔
      ∀ c, s.store.cursors.get subId = some c → s.sees s.reads = true →
        Q c { s with reads := s.reads + 1 } :=
  Flaky.ensures_lookup (by exact hE _ _)

theorem ensures_getSubscription {fullName : String} {Q : SubscriptionRecord → FlakyKv → Prop}
    {E : Error → FlakyKv → Prop} (hE : ∀ e n, E e { s with reads := n }) :
    Ensures (getSubscription fullName) s Q E ↔
      ∀ id, s.store.subNames.get fullName = some id → s.sees s.reads = true →
        ∀ r, s.store.subs.get id = some r → s.sees (s.reads + 1) = true →
          Q r { s with reads := s.reads + 2 } := by
  refine (Flaky.ensures_lookup ?_).trans ?_
  · exact hE _ _
  refine forall_congr' fun id => forall_congr' fun _ => forall_congr' fun _ => ?_
  exact Flaky.ensures_lookup (by exact hE _ _)

theorem createSnapshotKeeps_iff (hh : s.store.Healthy) (fullName sub : String)
    (labels : SortedMap String String) (nowMs : Int) :
    CreateSnapshotKeeps s fullName sub labels nowMs ↔
      CreateSnapshotHarmless s fullName sub nowMs := by
  unfold CreateSnapshotKeeps CreateSnapshotHarmless
  simp only [FlakyKv.createSnapshot]
  rw [ensures_bind, ensures_getSubscription fun _ _ => rfl]
  refine forall_congr' fun id => forall_congr' fun _ => forall_congr' fun _ => forall_congr' fun r =>
    forall_congr' fun _ => forall_congr' fun _ => ?_
  rw [ensures_bind, ensures_loadCursor fun _ _ => rfl]
  refine forall_congr' fun c => forall_congr' fun hc => forall_congr' fun _ => ?_
  simp only [FlakyKv.oldestUnackedPublishTsMs]
  rw [ensures_bind, ensures_bind, ensures_loadCursor fun _ _ => rfl]
  simp only [hc, Option.some.injEq, forall_eq']
  refine forall_congr' fun _ => ?_
  simp only [createSnapshotRecord, ensures_bind, ensures_liftResult, Flaky.ensures_scan,
    Flaky.ensures_read, ensures_pure, ensures_ite, ensures_throw, not_isSome_iff, implies_true,
    true_and, and_true]
  refine forall_congr' fun e => forall_congr' fun _ => forall_congr' fun p => forall_congr' fun _ =>
    forall_congr' fun _ => ?_
  refine (@ensures_nextId { s with reads := s.reads + 5 } hh _ _ _ ?_).trans ?_
  · exact fun _ => rfl
  refine forall_congr' fun id => forall_congr' fun _ => ?_
  simp only [Flaky.ensures_write, putSnap, putSnapName]
  rw [ensures_kvWrite_healthy, ensures_kvWrite_healthy]
  · exact (and_iff_left ⟨rfl, rfl⟩).trans (newRecord_iff rfl)
  · exact fun n => hh n
  · exact fun n => hh n

end Creates

theorem seen_harmless (is : List Input) {s : FlakyKv}
    (hs : s.store = (Run.final step start is).kv) (hsees : ∀ n, s.sees n = true)
    (hu64 : s.store.counter < u64Max) :
    (∀ topic ms, PublishHarmless s topic ms) ∧
    (∀ name retention schema ingestion, CreateTopicHarmless s name retention schema ingestion) ∧
    (∀ name topic opts, CreateSubscriptionHarmless s name topic opts) ∧
    ∀ name sub nowMs, CreateSnapshotHarmless s name sub nowMs := by
  have hc : Consistent s.store := hs ▸ (consistent_final is).1
  have hw : s.store.WellFormed := hs ▸ (wellFormed_final is).kv
  have hid : ∀ {ρ : Type} (records : SortedMap Nat ρ) (n : Nat) {idAfter : Nat → Result Nat},
      idAfter s.store.counter = .ok (s.store.counter + 1) →
      (∀ id, (records.get id).isSome → id ≤ s.store.counter) →
      IdHarmless s idAfter n records := by
    intro ρ records n idAfter hnext hknown id hid
    rw [hsees n, if_pos rfl, hnext, Except.ok.injEq] at hid
    by_contra hsome
    have hle := hknown _ (Option.isSome_iff_ne_none.mpr hsome)
    omega
  refine ⟨fun topic ms r _ _ _ _ => ?_, fun _ _ _ _ _ _ => ?_, fun _ _ _ _ _ _ _ _ _ => ?_,
    fun _ _ _ _ _ _ _ _ _ _ _ _ _ _ _ _ _ _ => ?_⟩
  · refine .inl ⟨fun i _ hr => ?_, fun q hlo _ => ?_⟩
    · have hlost := hr.1
      simp only [hsees, Bool.not_true, Bool.false_eq_true] at hlost
    · cases hrow : s.store.msg.get ⟨r.id, q⟩ with
      | none => exact hrow
      | some m =>
        have hle := hw.log hrow
        omega
  · exact hid _ _ (satIdAfter_of_lt hu64) fun _ h => hc.topic_known h
  · exact fun _ => hid _ _ (SubscriptionStore.idAfter_of_lt hu64) fun _ h => hc.sub_known h
  · exact hid _ _ (satIdAfter_of_lt hu64) fun _ h => @Consistent.known _ hc _ .snapshot h

/-- Over any store that takes its writes: exactly when the calls overwrite nothing. -/
theorem read_failures_harmless_iff (s : FlakyKv) (hh : s.store.Healthy) :
    (∀ topic ms nowMs, LogRoom s.store topic ms →
      (PublishKeeps s topic ms nowMs ↔ PublishHarmless s topic ms)) ∧
    (∀ name labels retention kms schema ingestion,
      CreateTopicKeeps s name labels retention kms schema ingestion ↔
        CreateTopicHarmless s name retention schema ingestion) ∧
    (∀ name topic opts nowMs, CreateSubscriptionKeeps s name topic opts nowMs ↔
      CreateSubscriptionHarmless s name topic opts) ∧
    ∀ name sub labels nowMs, CreateSnapshotKeeps s name sub labels nowMs ↔
      CreateSnapshotHarmless s name sub nowMs := by
  refine ⟨fun topic ms nowMs hroom => publishKeeps_iff hh hroom nowMs, ?_, ?_, ?_⟩
  · exact fun name labels retention kms schema ingestion =>
      createTopicKeeps_iff hh name labels retention kms schema ingestion
  · exact fun name topic opts nowMs => createSubscriptionKeeps_iff hh name topic opts nowMs
  · exact fun name sub labels nowMs => createSnapshotKeeps_iff hh name sub labels nowMs

/-- Two messages, the first of which is swept away. -/
def firstSwept : List Input :=
  [⟨0, .createTopic "projects/p/topics/top1" ∅ (some 600) none false false⟩,
    ⟨0, .publish "projects/p/topics/top1" [⟨[1], ∅, ""⟩]⟩,
    ⟨500000, .publish "projects/p/topics/top1" [⟨[2], ∅, ""⟩]⟩, ⟨700000, .sweepRetention⟩]

theorem firstSwept_facts : ∃ kv, kv = (Run.final step start firstSwept).kv ∧ kv.Healthy ∧
    (∀ r, TopicStore.get kv "projects/p/topics/top1" = .ok r → r.id = 1) ∧
    (kv.msg.get ⟨1, 2⟩).isSome ∧ kv.msg.get ⟨1, 1⟩ = none ∧ TopicStore.currentTail kv 1 = 2 := by
  have hid : (TopicStore.get (Run.final step start firstSwept).kv
      "projects/p/topics/top1").toOption.map TopicRecord.id = some 1 := by decide +kernel
  refine ⟨_, rfl, (wellFormed_final firstSwept).healthy, fun r hr => ?_, by decide +kernel,
    by decide +kernel, by decide +kernel⟩
  rw [hr] at hid
  exact Option.some.inj hid

/-- The counter cannot be read, and seq `1` is given out again, which is free by then. -/
theorem read_failures_harmless_swept : ∃ kv, kv = (Run.final step start firstSwept).kv ∧
    (kv.msg.get ⟨1, 2⟩).isSome ∧
      PublishKeeps ⟨kv, fun k => k ≠ 2, 0⟩ "projects/p/topics/top1" [⟨[3], ∅, ""⟩] 700000 := by
  obtain ⟨kv, hkv, hh, hid, hsecond, hfirst, htail⟩ := firstSwept_facts
  have hroom : LogRoom kv "projects/p/topics/top1" [⟨[3], ∅, ""⟩] := by
    intro r hr
    rw [hid r hr, htail]
    decide
  have hlost : (!decide ((0 : Nat) + 2 + 0 ≠ 2)) = true := by decide
  have hfree : ∀ q, 0 < q → q ≤ 1 → kv.msg.get ⟨1, q⟩ = none := by
    intro q hlo hhi
    have hone : q = 1 := by omega
    rw [hone]
    exact hfirst
  refine ⟨kv, hkv, hsecond,
    ((read_failures_harmless_iff ⟨kv, fun k => k ≠ 2, 0⟩ hh).1 _ _ _ hroom).mpr ?_⟩
  intro r hr _ _ _
  rw [hid r hr]
  refine Or.inr ⟨0, Nat.one_pos, ⟨hlost, fun _ => ?_⟩, fun j hj _ => ?_, Or.inl rfl,
    fun q hlo hhi => ?_, hfree⟩
  · show 0 < TopicStore.currentTail kv 1
    omega
  · have hlen : j < 1 := hj
    omega
  · omega

/-- The store after the set-up, with the `n`-th read lost. -/
def loseRead (n : Nat) : FlakyKv :=
  ⟨(Run.final step start (setup {})).kv, fun k => k ≠ n, 0⟩

/-- A lost read of the tail starts the seqs over, one of the id counter the ids. -/
theorem read_failure_overwrites :
    ¬ (∀ s : FlakyKv, s.store.Healthy → ∀ topic ms nowMs, LogRoom s.store topic ms →
      PublishKeeps s topic ms nowMs) ∧
    ¬ (∀ s : FlakyKv, s.store.Healthy → ∀ name labels retention kms schema ingestion,
      CreateTopicKeeps s name labels retention kms schema ingestion) := by
  have hh : ∀ n, (loseRead n).store.Healthy := fun _ => (wellFormed_final (setup {})).healthy
  refine ⟨fun h => ?_, fun h => ?_⟩
  · have hget : TopicStore.get (loseRead 2).store "projects/p/topics/top1" =
        .ok ⟨1, "projects/p/topics/top1", ∅, 0, none⟩ := rfl
    have hroom : LogRoom (loseRead 2).store "projects/p/topics/top1" [⟨[4], ∅, ""⟩] := by
      intro r hr
      cases hr.symm.trans hget
      decide +kernel
    have hkeeps := h (loseRead 2) (hh 2) "projects/p/topics/top1" [⟨[4], ∅, ""⟩] 1 hroom
    have hnew := (publishKeeps_iff (hh 2) hroom _).mp hkeeps _ hget rfl rfl rfl
    have hunused := (takenSeqs_fresh_iff.mpr hnew).2 1 (by decide +kernel)
    revert hunused
    decide +kernel
  · have hkeeps := h (loseRead 1) (hh 1) "projects/p/topics/top2" ∅ none none false false
    have hnew := (createTopicKeeps_iff (hh 1) _ _ _ _ _ _).mp hkeeps rfl fun _ => rfl
    have hfirst : FlakyKv.satIdAfter 0 = .ok 1 := satIdAfter_of_lt (by decide)
    have hunused := hnew 1 hfirst
    revert hunused
    decide +kernel

end OpenPubusb
