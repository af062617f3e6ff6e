import Mathlib.Logic.Function.Basic
import OpenPubusb.Run
import OpenPubusb.SubRows

/-! Two operations on the record of one subscription, as interleavings of their
store steps. Each of them reads the whole record and writes it back, so that
the result is that of a serial order only when what was read still holds at
the time of the write. -/

namespace OpenPubusb

open Hoare

inductive RecordOp where
  | touch (nowMs : Int)
  | update (patch : SubscriptionUpdatePatch)
  | detach
  | setPushConfig (pushConfig : Option PushConfig)
  | setTopicToDeleted
  | delete

namespace RecordOp

/-- The operation as a whole, on the subscription `id` named `fullName`. -/
def perform (id : Nat) (fullName : String) : RecordOp → KvM Unit
  | .touch nowMs => SubscriptionStore.touch id nowMs
  | .update patch => do
    let _ ← SubscriptionStore.update fullName patch
    pure ()
  | .detach => SubscriptionStore.detach fullName
  | .setPushConfig pushConfig => SubscriptionStore.setPushConfig fullName pushConfig
  | .setTopicToDeleted => SubscriptionStore.setTopicToDeleted id
  | .delete => SubscriptionStore.delete fullName

/-- The record that is written back; a deletion only needs the one it read. -/
def apply (r : SubscriptionRecord) : RecordOp → Result SubscriptionRecord
  | .touch nowMs => .ok { r with lastActivityTsMs := nowMs }
  | .update patch => do
    SubscriptionStore.checkPatch patch
    pure (SubscriptionStore.patched r patch)
  | .detach => .ok { r with detached := true }
  | .setPushConfig pushConfig => .ok { r with pushConfig := pushConfig }
  | .setTopicToDeleted => .ok { r with topic := deletedTopic }
  | .delete => .ok r

def byName : RecordOp → Bool
  | .touch _ => false
  | .setTopicToDeleted => false
  | _ => true

def isDelete : RecordOp → Bool
  | .delete => true
  | _ => false

end RecordOp

inductive RecordPhase where
  | start
  /-- The name row gave the id. -/
  | resolved (id : Nat)
  /-- The record was read; the one to write back is `r`. -/
  | loaded (r : SubscriptionRecord)
  /-- The record row is written, the name row is next. -/
  | written (r : SubscriptionRecord)
  | unnamed (r : SubscriptionRecord)
  | uncursored (r : SubscriptionRecord)
  | finished

namespace RecordOp

/-- The read of the record row. A touch ignores a missing record. -/
def read (id : Nat) (resource : String) (op : RecordOp) : KvM RecordPhase := do
  let kv ← get
  match SubscriptionStore.load kv id resource with
  | .error e =>
    match op with
    | .touch _ => pure .finished
    | _ => throw e
  | .ok r =>
    let r' ← liftResult (op.apply r)
    pure (.loaded r')

def step (id : Nat) (fullName : String) (op : RecordOp) : RecordPhase → KvM RecordPhase
  | .start =>
    if op.byName then do
      let kv ← get
      match kv.subNames.get fullName with
      | none => throw (.notFound fullName)
      | some i => pure (.resolved i)
    else op.read id s!"sub_id={id}"
  | .resolved i => op.read i fullName
  | .loaded r => do
    if op.isDelete then deleteSubRow r.id else putSub r.id r
    pure (.written r)
  | .written r =>
    if op.isDelete then do
      deleteSubName r.name
      pure (.unnamed r)
    else do
      putSubName r.name r.id
      pure .finished
  | .unnamed r => do
    deleteCursor r.id
    pure (.uncursored r)
  | .uncursored r => do
    deleteIdx r.topicId r.id
    pure .finished
  | .finished => pure .finished

def steps (id : Nat) (fullName : String) (op : RecordOp) : Nat → RecordPhase → KvM RecordPhase
  | 0, phase => pure phase
  | n + 1, phase => do
    let phase ← op.step id fullName phase
    op.steps id fullName n phase

def find (id : Nat) (fullName : String) (op : RecordOp) (kv : Kv) : Result SubscriptionRecord :=
  if op.byName then SubscriptionStore.get kv fullName
  else SubscriptionStore.load kv id s!"sub_id={id}"

/-- The writes of the operation, once the record to write back is known. -/
def commit (op : RecordOp) (r : SubscriptionRecord) : KvM Unit :=
  if op.isDelete then do
    deleteSubRow r.id
    deleteSubName r.name
    deleteCursor r.id
    deleteIdx r.topicId r.id
  else SubscriptionStore.persist r

section Perform

variable {id : Nat} {fullName : String} {op : RecordOp}

theorem perform_eq (kv : Kv) : op.perform id fullName kv =
    match op.find id fullName kv with
    | .error e =>
      match op with
      | .touch _ => .ok () kv
      | _ => .error e kv
    | .ok r =>
      match op.apply r with
      | .error e => .error e kv
      | .ok r' => op.commit r' kv := by
  cases op with
  | touch nowMs =>
    simp only [perform, SubscriptionStore.touch, find, byName, bind, EStateM.bind, estateGet_apply]
    cases SubscriptionStore.load kv id s!"sub_id={id}" <;> rfl
  | update patch =>
    simp only [perform, SubscriptionStore.update, find, byName, if_true, RecordOp.apply, bind_assoc,
      pure_bind, bind_pure_unit]
    simp only [bind, EStateM.bind, estateGet_apply]
    cases SubscriptionStore.get kv fullName with
    | error e => rfl
    | ok r => cases SubscriptionStore.checkPatch patch <;> rfl
  | detach =>
    simp only [perform, SubscriptionStore.detach, find, byName, if_true, bind, EStateM.bind,
      estateGet_apply]
    cases SubscriptionStore.get kv fullName <;> rfl
  | setPushConfig pushConfig =>
    simp only [perform, SubscriptionStore.setPushConfig, find, byName, if_true, bind, EStateM.bind,
      estateGet_apply]
    cases SubscriptionStore.get kv fullName <;> rfl
  | setTopicToDeleted =>
    simp only [perform, SubscriptionStore.setTopicToDeleted, find, byName, bind, EStateM.bind,
      estateGet_apply]
    cases SubscriptionStore.load kv id s!"sub_id={id}" <;> rfl
  | delete =>
    simp only [perform, SubscriptionStore.delete, find, byName, if_true, bind, EStateM.bind,
      estateGet_apply]
    cases SubscriptionStore.get kv fullName <;> rfl

theorem steps_finished (n : Nat) : op.steps id fullName n .finished = pure .finished := by
  induction n with
  | zero => rfl
  | succ n ih => simpa only [steps, step, pure_bind] using ih

theorem steps_commit (n : Nat) (r : SubscriptionRecord) :
    op.steps id fullName (n + 4) (.loaded r) = (do
      op.commit r
      pure .finished) := by
  cases hop : op.isDelete <;>
    simp only [steps, step, commit, hop, Bool.false_eq_true, if_true, if_false, bind_assoc,
      pure_bind, steps_finished, SubscriptionStore.persist]

theorem read_steps (n i : Nat) (resource : String) (kv : Kv) :
    (do
      let phase ← op.read i resource
      op.steps id fullName (n + 4) phase) kv =
      match SubscriptionStore.load kv i resource with
      | .error e =>
        match op with
        | .touch _ => .ok .finished kv
        | _ => .error e kv
      | .ok r =>
        match op.apply r with
        | .error e => .error e kv
        | .ok r' => (do
          op.commit r'
          pure .finished : KvM RecordPhase) kv := by
  have hget : (get : KvM Kv) kv = .ok kv kv := rfl
  simp only [RecordOp.read, bind, EStateM.bind, hget]
  cases hl : SubscriptionStore.load kv i resource with
  | error e => cases op <;> first | rfl | exact congrFun (steps_finished _) kv
  | ok r =>
    simp only
    cases ha : op.apply r with
    | error e => rfl
    | ok r' => exact congrFun (steps_commit n r') kv

theorem steps_eq_perform :
    op.steps id fullName 6 .start = (do
      op.perform id fullName
      pure .finished) := by
  funext kv
  change _ = EStateM.bind (op.perform id fullName) (fun _ => pure RecordPhase.finished) kv
  rw [EStateM.bind, perform_eq]
  cases hop : op.byName with
  | false =>
    have hsteps : op.steps id fullName 6 .start kv = (do
        let phase ← op.read id s!"sub_id={id}"
        op.steps id fullName (1 + 4) phase) kv := by
      simp only [steps, step, hop, Bool.false_eq_true, if_false]
    rw [hsteps, read_steps]
    simp only [find, hop, Bool.false_eq_true, if_false]
    cases SubscriptionStore.load kv id s!"sub_id={id}" with
    | error e => cases op <;> rfl
    | ok r => 
      simp only
      cases op.apply r <;> rfl
  | true =>
    simp only [find, hop, if_true, SubscriptionStore.get]
    have hstart : op.step id fullName .start kv =
        match kv.subNames.get fullName with
        | none => .error (.notFound fullName) kv
        | some i => .ok (.resolved i) kv := by
      rw [step, if_pos hop]
      change EStateM.bind EStateM.get _ kv = _
      simp only [EStateM.bind, estateGet_apply]
      cases kv.subNames.get fullName <;> rfl
    have hsteps : op.steps id fullName 6 .start kv =
        EStateM.bind (op.step id fullName .start) (op.steps id fullName 5) kv := rfl
    rw [hsteps, EStateM.bind, hstart]
    cases hn : kv.subNames.get fullName with
    | none => cases op <;> first | rfl | cases hop
    | some i =>
      refine (read_steps 0 i fullName kv).trans ?_
      simp only
      cases SubscriptionStore.load kv i fullName with
      | error e => cases op <;> rfl
      | ok r =>
        simp only
        cases op.apply r <;> rfl

end Perform

end RecordOp

/-- The two calls, `ops false` and `ops true`, share the store. -/
structure Racers where
  kv : Kv
  phases : Bool → RecordPhase

section Racers

variable (id : Nat) (name : String) (ops : Bool → RecordOp)

/-- The call `k` makes its next step. -/
def Racers.step (s : Racers) (k : Bool) : Unit × Racers :=
  match (ops k).step id name (s.phases k) s.kv with
  | .ok phase kv => ((), ⟨kv, Function.update s.phases k phase⟩)
  | .error _ kv => ((), ⟨kv, Function.update s.phases k .finished⟩)

def Racers.begin (kv : Kv) : Racers := ⟨kv, fun _ => .start⟩

def RecordPhase.Sane : RecordPhase → Prop
  | .resolved i => i = id
  | .loaded r => r.id = id ∧ r.name = name
  | .written r => r.id = id ∧ r.name = name
  | .unnamed r => r.id = id ∧ r.name = name
  | .uncursored r => r.id = id ∧ r.name = name
  | _ => True

/-- What the step of `k` writes back was read from the rows that are stored. -/
def Racers.InPlace (s : Racers) (k : Bool) : Prop :=
  (ops k).isDelete = false →
    match s.phases k with
    | .loaded r' => ∃ r, s.kv.subs.get id = some r ∧ (ops k).apply r = .ok r'
    | .written _ => s.kv.subNames.get name = some id
    | _ => True

structure Racers.Sane (s : Racers) : Prop where
  healthy : s.kv.Healthy
  record : ∀ r, s.kv.subs.get id = some r → r.id = id ∧ r.name = name
  named : ∀ i, s.kv.subNames.get name = some i → i = id
  phases : ∀ k, (s.phases k).Sane id name

end Racers

/-- How far a call is with the two rows. -/
inductive Stage where
  | reading
  | loaded (r : SubscriptionRecord)
  | written
  | clear

def RecordPhase.stage : RecordPhase → Stage
  | .start => .reading
  | .resolved _ => .reading
  | .loaded r => .loaded r
  | .written _ => .written
  | _ => .clear

/-- What a race looks like from the record row and the name row. -/
structure Race where
  record : Option SubscriptionRecord
  named : Bool
  stage : Bool → Stage

def Race.advance (s : Race) (k : Bool) (stage : Stage) : Race :=
  { s with stage := Function.update s.stage k stage }

inductive Race.Step (ops : Bool → RecordOp) (s : Race) (k : Bool) (t : Race) : Prop where
  | silent (hk : s.stage k = .reading ∨ s.stage k = .clear) (ht : t = s)
  | load (r r' : SubscriptionRecord) (hk : s.stage k = .reading) (hr : s.record = some r)
      (ha : (ops k).apply r = .ok r') (ht : t = s.advance k (.loaded r'))
  | miss (hk : s.stage k = .reading)
      (hr : s.named = false ∨ s.record = none ∨
        ∃ r e, s.record = some r ∧ (ops k).apply r = .error e)
      (ht : t = s.advance k .clear)
  | put (r : SubscriptionRecord) (hop : (ops k).isDelete = false) (hk : s.stage k = .loaded r)
      (ht : t = { s.advance k .written with record := some r })
  | erase (r : SubscriptionRecord) (hop : (ops k).isDelete = true) (hk : s.stage k = .loaded r)
      (ht : t = { s.advance k .written with record := none })
  | name (hop : (ops k).isDelete = false) (hk : s.stage k = .written)
      (ht : t = { s.advance k .clear with named := true })
  | unname (hop : (ops k).isDelete = true) (hk : s.stage k = .written)
      (ht : t = { s.advance k .clear with named := false })

def Racers.view (id : Nat) (name : String) (s : Racers) : Race :=
  ⟨s.kv.subs.get id, (s.kv.subNames.get name).isSome, fun k => (s.phases k).stage⟩

theorem stage_update (phases : Bool → RecordPhase) (k : Bool) (phase : RecordPhase) :
    (fun j => (Function.update phases k phase j).stage) =
      Function.update (fun j => (phases j).stage) k phase.stage := by
  funext j
  by_cases hj : j = k
  · subst hj
    rw [Function.update_self, Function.update_self]
  · rw [Function.update_of_ne hj, Function.update_of_ne hj]

section Steps

variable {id : Nat} {name : String} {ops : Bool → RecordOp} {s : Racers}

theorem Racers.Sane.phases_update (h : s.Sane id name) {k : Bool} {phase : RecordPhase}
    (hp : phase.Sane id name) (j : Bool) : (Function.update s.phases k phase j).Sane id name := by
  by_cases hj : j = k
  · subst hj
    rw [Function.update_self]
    exact hp
  · rw [Function.update_of_ne hj]
    exact h.phases j

theorem apply_sane {op : RecordOp} {r r' : SubscriptionRecord} (h : op.apply r = .ok r') :
    r'.id = r.id ∧ r'.name = r.name := by
  cases op with
  | update patch =>
    simp only [RecordOp.apply, bind, Except.bind] at h
    cases hp : SubscriptionStore.checkPatch patch with
    | error e => rw [hp] at h; cases h
    | ok _ =>
      rw [hp] at h
      cases h
      exact ⟨rfl, rfl⟩
  | _ =>
    cases h
    exact ⟨rfl, rfl⟩

/-- The step of `k` ended in `phase`, over the store `kv`. -/
structure Stepped (id : Nat) (name : String) (ops : Bool → RecordOp) (s : Racers) (k : Bool)
    (phase : RecordPhase) (kv : Kv) : Prop where
  sane : Racers.Sane id name ⟨kv, Function.update s.phases k phase⟩
  view : Race.Step ops (s.view id name) k
    (Racers.view id name ⟨kv, Function.update s.phases k phase⟩)

theorem Racers.Sane.quiet (h : s.Sane id name) {k : Bool} {phase : RecordPhase}
    (hp : phase.Sane id name) : Racers.Sane id name ⟨s.kv, Function.update s.phases k phase⟩ :=
  ⟨h.healthy, h.record, h.named, h.phases_update hp⟩

theorem view_of_rows (k : Bool) (phase : RecordPhase) (kv : Kv) :
    Racers.view id name ⟨kv, Function.update s.phases k phase⟩ =
      ⟨kv.subs.get id, (kv.subNames.get name).isSome,
        Function.update (s.view id name).stage k phase.stage⟩ := by
  simp only [Racers.view, stage_update]

theorem Race.Step.of_same {k : Bool} {phase : RecordPhase} {kv : Kv}
    (hsubs : kv.subs = s.kv.subs) (hnames : kv.subNames = s.kv.subNames)
    (hstage : phase.stage = (s.phases k).stage)
    (hquiet : (s.phases k).stage = .reading ∨ (s.phases k).stage = .clear) :
    Race.Step ops (s.view id name) k
      (Racers.view id name ⟨kv, Function.update s.phases k phase⟩) := by
  refine .silent hquiet ?_
  have hk : (s.phases k).stage = (s.view id name).stage k := rfl
  rw [view_of_rows, hstage, hk, Function.update_eq_self, hsubs, hnames]
  rfl

theorem ensures_read (h : s.Sane id name) {k : Bool} (hk : (s.phases k).stage = .reading)
    (resource : String) :
    Ensures ((ops k).read id resource) s.kv (Stepped id name ops s k)
      (fun _ => Stepped id name ops s k .finished) := by
  have hmiss : (s.kv.subs.get id = none ∨
      ∃ r e, s.kv.subs.get id = some r ∧ (ops k).apply r = .error e) →
      Stepped id name ops s k .finished s.kv := fun hm =>
    ⟨h.quiet trivial, .miss hk (Or.inr hm) (view_of_rows k .finished s.kv)⟩
  simp only [RecordOp.read, ensures_bind, ensures_get, SubscriptionStore.load]
  cases hr : s.kv.subs.get id with
  | none =>
    have hm := hmiss (Or.inl hr)
    cases ops k <;> exact hm
  | some r =>
    simp only [ensures_bind]
    cases ha : (ops k).apply r with
    | error e => exact hmiss (Or.inr ⟨r, e, hr, ha⟩)
    | ok r' =>
      have hs : (RecordPhase.loaded r').Sane id name := by
        have hrr := h.record r hr
        have ha' := apply_sane ha
        exact ⟨ha'.1.trans hrr.1, ha'.2.trans hrr.2⟩
      exact ⟨h.quiet hs, .load r r' hk hr ha (view_of_rows k (.loaded r') s.kv)⟩

theorem ensures_recordStep (h : s.Sane id name) (k : Bool) :
    Ensures ((ops k).step id name (s.phases k)) s.kv (Stepped id name ops s k)
      (fun _ => Stepped id name ops s k .finished) := by
  have hsane := h.phases k
  cases hk : s.phases k with
  | start =>
    simp only [RecordOp.step, ensures_ite]
    refine ⟨fun _ => ?_, fun _ => ensures_read h (by rw [hk]; rfl) _⟩
    simp only [ensures_bind, ensures_get]
    cases hn : s.kv.subNames.get name with
    | none =>
      have hnamed : (s.view id name).named = false := by
        simp only [Racers.view, hn, Option.isSome_none]
      exact ⟨h.quiet trivial, .miss (by simp only [Racers.view, hk]; rfl) (Or.inl hnamed)
        (view_of_rows k .finished s.kv)⟩
    | some i =>
      exact ⟨h.quiet (h.named i hn),
        .of_same rfl rfl (by rw [hk]; rfl) (Or.inl (by rw [hk]; rfl))⟩
  | resolved i =>
    rw [hk] at hsane
    have hi : i = id := hsane
    subst hi
    exact ensures_read h (by rw [hk]; rfl) _
  | loaded r =>
    rw [hk] at hsane
    have hstage : (s.view id name).stage k = .loaded r := by
      simp only [Racers.view, hk, RecordPhase.stage]
    have hid : r.id = id := hsane.1
    have hname : r.name = name := hsane.2
    simp only [RecordOp.step, ensures_bind, ensures_ite, deleteSubRow, putSub,
      ensures_kvWrite_healthy h.healthy, ensures_pure]
    refine ⟨fun hop => ⟨⟨h.healthy, fun r' hr' => ?_, h.named, h.phases_update hsane⟩, ?_⟩,
      fun hop => ⟨⟨h.healthy, fun r' hr' => ?_, h.named, h.phases_update hsane⟩, ?_⟩⟩
    · change (s.kv.subs.erase r.id).get id = some r' at hr'
      rw [hid, SortedMap.get_erase_self] at hr'
      cases hr'
    · refine .erase r hop hstage ?_
      rw [view_of_rows]
      change Race.mk ((s.kv.subs.erase r.id).get id) _ _ = _
      rw [hid, SortedMap.get_erase_self]
      rfl
    · change (s.kv.subs.insert r.id r).get id = some r' at hr'
      rw [hid, SortedMap.get_insert_self] at hr'
      cases hr'
      exact ⟨hid, hname⟩
    · refine .put r (by simpa using hop) hstage ?_
      rw [view_of_rows]
      change Race.mk ((s.kv.subs.insert r.id r).get id) _ _ = _
      rw [hid, SortedMap.get_insert_self]
      rfl
  | written r =>
    rw [hk] at hsane
    have hid : r.id = id := hsane.1
    have hname : r.name = name := hsane.2
    have hstage : (s.view id name).stage k = .written := by
      simp only [Racers.view, hk, RecordPhase.stage]
    simp only [RecordOp.step, ensures_bind, ensures_ite, deleteSubName, putSubName,
      ensures_kvWrite_healthy h.healthy, ensures_pure]
    refine ⟨fun hop => ⟨⟨h.healthy, h.record, fun i hi => ?_, h.phases_update hsane⟩, ?_⟩,
      fun hop => ⟨⟨h.healthy, h.record, fun i hi => ?_, h.phases_update trivial⟩, ?_⟩⟩
    · change (s.kv.subNames.erase r.name).get name = some i at hi
      rw [hname, SortedMap.get_erase_self] at hi
      cases hi
    · refine .unname hop hstage ?_
      rw [view_of_rows]
      change Race.mk _ ((s.kv.subNames.erase r.name).get name).isSome _ = _
      rw [hname, SortedMap.get_erase_self]
      rfl
    · change (s.kv.subNames.insert r.name r.id).get name = some i at hi
      rw [hname, SortedMap.get_insert_self] at hi
      cases hi
      exact hid
    · refine .name (by simpa using hop) hstage ?_
      rw [view_of_rows]
      change Race.mk _ ((s.kv.subNames.insert r.name r.id).get name).isSome _ = _
      rw [hname, SortedMap.get_insert_self]
      rfl
  | unnamed r =>
    rw [hk] at hsane
    simp only [RecordOp.step, ensures_bind, deleteCursor, ensures_kvWrite_healthy h.healthy,
      ensures_pure]
    exact ⟨⟨h.healthy, h.record, h.named, h.phases_update hsane⟩,
      .of_same rfl rfl (by rw [hk]; rfl) (Or.inr (by rw [hk]; rfl))⟩
  | uncursored r =>
    simp only [RecordOp.step, ensures_bind, deleteIdx, ensures_kvWrite_healthy h.healthy,
      ensures_pure]
    exact ⟨⟨h.healthy, h.record, h.named, h.phases_update trivial⟩,
      .of_same rfl rfl (by rw [hk]; rfl) (Or.inr (by rw [hk]; rfl))⟩
  | finished => exact ⟨h.quiet trivial, .of_same rfl rfl (by rw [hk]) (Or.inr (by rw [hk]; rfl))⟩

theorem stepped (ops : Bool → RecordOp) (h : s.Sane id name) (k : Bool) :
    (s.step id name ops k).2.Sane id name ∧
      Race.Step ops (s.view id name) k ((s.step id name ops k).2.view id name) := by
  have hstep : Ensures ((ops k).step id name (s.phases k)) s.kv (Stepped id name ops s k)
      (fun _ => Stepped id name ops s k .finished) := ensures_recordStep h k
  unfold Racers.step
  cases hm : (ops k).step id name (s.phases k) s.kv with
  | ok phase kv => exact ⟨(hstep.of_ok hm).sane, (hstep.of_ok hm).view⟩
  | error e kv => exact ⟨(hstep.of_error hm).sane, (hstep.of_error hm).view⟩

end Steps

end OpenPubusb
