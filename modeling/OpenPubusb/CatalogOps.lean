import OpenPubusb.Catalog
import OpenPubusb.EngineSpec

/-! The changes each operation of the service makes to the tables of a healthy
store. -/

namespace OpenPubusb

open Hoare

/-- From a consistent healthy store the operation only makes the changes listed
for it. -/
def Moves (op : Op) (kv kv' : Kv) : Prop := Consistent kv ∧ kv.Healthy → Path op kv kv'

section Moves

variable {op : Op}

instance : Std.Refl (Moves op) := ⟨fun _ _ => .refl⟩

instance : IsTrans Kv (Moves op) := by
  refine ⟨fun kv kv' kv'' h h' hc => ?_⟩
  have hev := (h hc).evolves hc.1
  exact (h hc).trans (h' ⟨hev.consistent, hev.healthy hc.2⟩)

theorem moves_change {kv kv' : Kv} (h : Change op kv kv') : Moves op kv kv' := fun _ => .single h

def Once (op : Op) (kv kv' : Kv) : Prop := Consistent kv ∧ kv.Healthy → Relation.ReflGen (Change op) kv kv'

theorem Once.moves {kv kv' : Kv} (h : Once op kv kv') : Moves op kv kv' := fun hc => (h hc).to_reflTransGen

theorem ensures_persist_change {kv : Kv} (hh : kv.Healthy) {id : Nat} {r r' : SubscriptionRecord}
    (hr : kv.subs.get id = some r) (h : Rewrites op r r') (E : Error → Kv → Prop) :
    Ensures (SubscriptionStore.persist r') kv (fun _ kv' => Relation.ReflGen (Change op) kv kv') E := by
  simp only [SubscriptionStore.persist, ensures_bind, putSub, putSubName]
  refine (ensures_kvWrite_healthy hh).mpr ((ensures_kvWrite_healthy ?_).mpr ?_)
  · exact fun n => hh n
  · exact .single (.rewrite _ hr h)

theorem once_touch (subId : Nat) (nowMs : Int) :
    Keeps (Once op) (SubscriptionStore.touch subId nowMs) := by
  refine Keeps.of_pre fun kv ⟨hc, hh⟩ => ?_
  simp only [SubscriptionStore.touch, ensures_bind, ensures_estateGet]
  cases hl : SubscriptionStore.load kv subId s!"sub_id={subId}" with
  | error e => exact .refl
  | ok r => exact ensures_persist_change hh (load_eq_ok hl) (.touch op r nowMs) _

instance : TouchFrame (Moves op) where
  refl _ _ := .refl
  trans h h' := trans_of (Moves op) h h'
  dlv _ dlv w := moves_change (.rows dlv w)
  touch subId nowMs := (once_touch subId nowMs).mono fun _ _ h => h.moves

theorem logFrame_moves (h : op.appends = true) : LogFrame (Moves op) where
  log _ topicSeq msg w := moves_change (.log topicSeq msg w h)

theorem cursorFrame_moves (h : op.isLease = true ∨ op.isAck = true) : CursorFrame (Moves op) where
  cursor w hc ha := moves_change (.advance w h hc ha)

end Moves

section Subscriptions

theorem once_named {op : Op} {name : String} {f : SubscriptionRecord → SubscriptionRecord}
    (hf : ∀ r, r.name = name → Rewrites op r (f r)) :
    Keeps (Once op) (EStateM.get >>= fun kv => liftResult (SubscriptionStore.get kv name) >>=
      fun r => SubscriptionStore.persist (f r)) := by
  refine Keeps.of_pre fun kv ⟨hc, hh⟩ => ?_
  simp only [ensures_bind, ensures_estateGet, ensures_liftResult]
  refine ⟨fun r hr => ?_, fun _ _ => .refl⟩
  obtain ⟨id, hn, hs⟩ := get_eq_ok hr
  exact ensures_persist_change hh hs (hf r (hc.subs.name_eq hn hs)) _

theorem once_update (name : String) (patch : SubscriptionUpdatePatch) :
    Keeps (Once (.updateSubscription name patch)) (SubscriptionStore.update name patch) := by
  refine Keeps.of_pre fun kv ⟨hc, hh⟩ => ?_
  simp only [SubscriptionStore.update, ensures_bind, ensures_estateGet, ensures_liftResult,
    ensures_pure]
  refine ⟨fun r hr => ⟨fun _ hpatch => ?_, fun _ _ => .refl⟩, fun _ _ => .refl⟩
  obtain ⟨id, hn, hs⟩ := get_eq_ok hr
  have hw := Rewrites.update r patch hpatch
  rw [hc.subs.name_eq hn hs] at hw
  exact ensures_persist_change hh hs hw _

theorem once_deleteSubscription {op : Op} (name : String)
    (hop : op = .deleteSubscription name ∨ op = .sweepRetention) :
    Keeps (Once op) (SubscriptionStore.delete name) := by
  refine Keeps.of_pre fun kv ⟨hc, hh⟩ => ?_
  simp only [SubscriptionStore.delete, ensures_bind, ensures_estateGet, ensures_liftResult,
    deleteSubRow, deleteSubName, deleteCursor, deleteIdx]
  refine ⟨fun r hr => ?_, fun _ _ => .refl⟩
  obtain ⟨id, hn, hs⟩ := get_eq_ok hr
  refine (ensures_kvWrite_healthy hh).mpr ((ensures_kvWrite_healthy ?_).mpr
    ((ensures_kvWrite_healthy ?_).mpr ((ensures_kvWrite_healthy ?_).mpr ?_)))
  · exact fun n => hh n
  · exact fun n => hh n
  · exact fun n => hh n
  · exact .single (.deleteSubscription _ hs (by rwa [hc.subs.name_eq hn hs]))

theorem moves_sweepSubscriptions (nowMs : Int) (rs : List SubscriptionRecord) :
    Keeps (Moves .sweepRetention) (SubscriptionStore.sweepRecords nowMs rs) := by
  induction rs with
  | nil => exact Keeps.pure _
  | cons r rs ih =>
    refine Keeps.ite (fun _ => ?_) fun _ => ih
    refine Keeps.bind ((once_deleteSubscription r.name (Or.inr rfl)).mono fun _ _ h => h.moves) fun _ => ?_
    exact Keeps.bind ih fun _ => Keeps.pure _

theorem once_createSubscription (name topic : String) (opts : CreateSubscriptionOptions)
    (nowMs : Int) :
    Keeps (OnStore (Once (.createSubscription name topic opts)))
      (PubSubService.createSubscription name topic opts nowMs) := by
  refine keeps_onStore (Keeps.of_pre fun kv ⟨hc, hh⟩ => ?_)
  simp only [SubscriptionStore.create, ensures_bind, ensures_liftResult, ensures_estateGet,
    ensures_ite, ensures_throw, nextId, ensures_get, putIdSeq, ensures_kvWrite_healthy hh,
    ensures_pure, SubscriptionStore.persist]
  refine ⟨fun t ht => ⟨fun n hn => ⟨fun _ => .refl, fun hname => ?_⟩, fun _ _ => .refl⟩,
    fun _ _ => .refl⟩
  refine (ensures_kvWrite_healthy ?_).mpr ((ensures_kvWrite_healthy ?_).mpr
    ((ensures_kvWrite_healthy ?_).mpr ((ensures_kvWrite_healthy ?_).mpr ?_)))
  · exact fun n => hh n
  · exact fun n => hh n
  · exact fun n => hh n
  · exact fun n => hh n
  · exact .single (.createSubscription _ (Option.not_isSome_iff_eq_none.mp hname) ht hn)

end Subscriptions

section Topics

theorem topicGet_eq_ok {kv : Kv} {name : String} {r : TopicRecord}
    (h : TopicStore.get kv name = .ok r) :
    ∃ id, TopicStore.resolveId kv name = .ok id ∧ kv.topicNames.get name = some id ∧
      kv.topics.get id = some r := by
  simp only [TopicStore.get] at h
  cases hi : TopicStore.resolveId kv name with
  | error e => rw [hi] at h; cases h
  | ok id =>
    rw [hi] at h
    have hl : TopicStore.loadRecord kv id = .ok r := h
    refine ⟨id, rfl, ?_, ?_⟩
    · simp only [TopicStore.resolveId] at hi
      cases hp : TopicName.parse name with
      | error e => rw [hp] at hi; cases hi
      | ok _ =>
        rw [hp] at hi
        cases hn : kv.topicNames.get name with
        | none => rw [hn] at hi; cases hi
        | some j => rw [hn] at hi; cases hi; rfl
    · unfold TopicStore.loadRecord at hl
      cases ht : kv.topics.get id with
      | none => rw [ht] at hl; cases hl
      | some r' => rw [ht] at hl; cases hl; rfl

theorem once_createTopic (name : String) (labels : SortedMap String String)
    (retention : Option Int) (kms : Option String) (schema ingestion : Bool) :
    Keeps (Once (.createTopic name labels retention kms schema ingestion))
      (TopicStore.create name labels retention kms schema ingestion) := by
  refine Keeps.of_pre fun kv ⟨hc, hh⟩ => ?_
  simp only [TopicStore.create, ensures_bind, ensures_liftResult, ensures_estateGet, ensures_ite,
    ensures_throw, nextId, ensures_get, putIdSeq, ensures_kvWrite_healthy hh, ensures_pure]
  refine ⟨fun _ _ => ⟨fun _ => .refl, fun hname => ?_⟩, fun _ _ => .refl⟩
  refine (ensures_kvWrite_healthy ?_).mpr ((ensures_kvWrite_healthy ?_).mpr ?_)
  · exact fun n => hh n
  · exact fun n => hh n
  · exact .single (.createTopic (r := ⟨kv.counter + 1, name, labels, retention.getD 0, kms⟩) _
      (Option.not_isSome_iff_eq_none.mp hname) rfl rfl)

theorem once_updateTopic (name : String) (labels : Option (SortedMap String String))
    (retention : Option (Option Int)) (kms : Option (Option String)) :
    Keeps (Once (.updateTopic name labels retention kms))
      (TopicStore.update name labels retention kms) := by
  refine Keeps.of_pre fun kv ⟨hc, hh⟩ => ?_
  simp only [TopicStore.update, ensures_bind, ensures_liftResult, ensures_estateGet, putTopic,
    ensures_kvWrite_healthy hh, ensures_pure]
  refine ⟨fun r hr => ⟨fun _ _ => ?_, fun _ _ => .refl⟩, fun _ _ => .refl⟩
  obtain ⟨id, _, _, hs⟩ := topicGet_eq_ok hr
  rw [← (hc.topics.record hs).2] at hs
  refine .single (.updateTopic _ hs ?_ ?_)
  · rfl
  · rfl

/-- The subscriptions of the topic are marked, those in `todo` still to come. -/
structure Marking (topicId : Nat) (todo : Nat → Prop) (kv kv' : Kv) : Prop where
  subs : ∀ i, ¬ todo i → kv'.subs.get i = (kv.subs.get i).map
    (fun x => if x.topicId = topicId then { x with topic := deletedTopic } else x)
  rest : ∀ i, todo i → kv'.subs.get i = kv.subs.get i
  names : ∀ n, kv'.subNames.get n = kv.subNames.get n
  same : kv' = { kv with subs := kv'.subs, subNames := kv'.subNames, writes := kv'.writes }

theorem ensures_setTopicsToDeleted {topicId : Nat} (ids : List Nat) {kv₀ kv : Kv}
    (hc : Consistent kv) (hh : kv.Healthy)
    (hids : ∀ i ∈ ids, ∃ r, kv₀.subs.get i = some r ∧ r.topicId = topicId) (hnodup : ids.Nodup)
    (hm : Marking topicId (· ∈ ids) kv₀ kv) :
    Ensures (PubSubService.setTopicsToDeleted ids) kv
      (fun _ kv' => Marking topicId (fun _ => False) kv₀ kv' ∧ kv'.Healthy) (fun _ _ => False) := by
  induction ids generalizing kv with
  | nil =>
    refine ⟨⟨fun i _ => hm.subs i (by simp), fun _ h => h.elim, hm.names, hm.same⟩, hh⟩
  | cons id ids ih =>
    obtain ⟨hnot, hnodup⟩ := List.nodup_cons.mp hnodup
    obtain ⟨r, hr, ht⟩ := hids id List.mem_cons_self
    have hr' : kv.subs.get id = some r := (hm.rest id List.mem_cons_self).trans hr
    have hload : SubscriptionStore.load kv id s!"sub_id={id}" = .ok r := by
      rw [SubscriptionStore.load, hr']
    simp only [PubSubService.setTopicsToDeleted, SubscriptionStore.setTopicToDeleted,
      SubscriptionStore.persist, putSub, putSubName, ensures_bind, ensures_estateGet, hload,
      ensures_liftResult]
    refine ⟨fun r' he => ?_, fun _ he => by cases he⟩
    cases he
    refine (ensures_kvWrite_healthy hh).mpr ((ensures_kvWrite_healthy ?_).mpr ?_)
    · exact fun n => hh n
    have hkey : identity { r with topic := deletedTopic } = identity r := rfl
    obtain ⟨hsubs, hnames⟩ := persist_rows hc hr' hkey
    refine ih (evolves_persist hc hr' hkey _).consistent (fun n => hh n)
      (fun i hi => hids i (List.mem_cons_of_mem _ hi)) hnodup ⟨fun i hi => ?_, fun i hi => ?_,
      fun n => (hnames n).trans (hm.names n), ?_⟩
    · refine (hsubs i).trans ?_
      split_ifs with h
      · rw [h, hr, Option.map_some, if_pos ht]
      · exact hm.subs i (by simp [h, hi])
    · refine (hsubs i).trans ?_
      split_ifs with h
      · exact absurd (h ▸ hi) hnot
      · exact hm.rest i (List.mem_cons_of_mem _ hi)
    · exact congrArg (fun k : Kv => { k with
        subs := kv.subs.insert r.id { r with topic := deletedTopic }
        subNames := kv.subNames.insert r.name r.id
        writes := kv.writes + 1 + 1 }) hm.same

/-- The subscriptions of the topic carry the sentinel, and the topic is gone. -/
structure TopicDropped (t : TopicRecord) (kv kv' : Kv) : Prop where
  topic : kv.topics.get t.id = some t
  marked : ∀ i, kv'.subs.get i = (kv.subs.get i).map
    (fun x => if x.topicId = t.id then { x with topic := deletedTopic } else x)
  names : ∀ n, kv'.subNames.get n = kv.subNames.get n
  same : kv' = { kv with
    subs := kv'.subs
    subNames := kv'.subNames
    topics := kv.topics.erase t.id
    topicNames := kv.topicNames.erase t.name
    writes := kv'.writes }

theorem ensures_deleteTopic (name : String) {kv : Kv} (hc : Consistent kv) (hh : kv.Healthy) :
    Ensures (do
      let kv ← get
      let record ← liftResult (TopicStore.get kv name)
      PubSubService.setTopicsToDeleted (SubscriptionStore.listByTopicId kv record.id)
      TopicStore.delete name) kv
      (fun _ kv' => ∃ t, TopicStore.get kv name = .ok t ∧ t.name = name ∧ TopicDropped t kv kv')
      (fun _ kv' => kv' = kv) := by
  simp only [ensures_bind, ensures_get, ensures_liftResult]
  refine ⟨fun t ht => ?_, fun _ _ => trivial⟩
  obtain ⟨id, hres, hn, hs⟩ := topicGet_eq_ok ht
  have hid : t.id = id := (hc.topics.record hs).2
  have hids : ∀ i ∈ SubscriptionStore.listByTopicId kv t.id,
      ∃ r, kv.subs.get i = some r ∧ r.topicId = t.id :=
    fun i hi => (hc.idx t.id i).mp (mem_listByTopicId hi)
  have hnodup : (SubscriptionStore.listByTopicId kv t.id).Nodup := by
    refine List.pairwise_map.mpr ((scanPrefix_sorted kv.idx t.id).imp fun h => ?_)
    exact h.ne
  have hstart : Marking t.id (· ∈ SubscriptionStore.listByTopicId kv t.id) kv kv := by
    refine ⟨fun i hi => ?_, fun _ _ => rfl, fun _ => rfl, rfl⟩
    cases hr : kv.subs.get i with
    | none => rfl
    | some r =>
      have hne : r.topicId ≠ t.id := fun he => by
        refine hi (List.mem_map.mpr ?_)
        obtain ⟨u, hu⟩ := Option.isSome_iff_exists.mp ((hc.idx t.id i).mpr ⟨r, hr, he⟩)
        exact ⟨(i, u), mem_scanPrefix.mpr hu, rfl⟩
      rw [Option.map_some, if_neg hne]
  refine (ensures_setTopicsToDeleted _ hc hh hids hnodup hstart).mono (fun _ kv' h => ?_)
    (fun _ _ h => h.elim)
  obtain ⟨hm, hh'⟩ := h
  have hres' : TopicStore.resolveId kv' name = .ok id := by
    rw [hm.same]
    exact hres
  simp only [TopicStore.delete, ensures_bind, ensures_estateGet, ensures_liftResult, hres',
    deleteTopicRow, deleteTopicName]
  refine ⟨fun j hj => ?_, fun _ he => by cases he⟩
  cases hj
  refine (ensures_kvWrite_healthy hh').mpr ((ensures_kvWrite_healthy ?_).mpr ?_)
  · exact fun n => hh' n
  have hname : t.name = name := hc.topics.name_eq hn hs
  have heq := congrArg (fun k : Kv => { k with
    topics := k.topics.erase id
    topicNames := k.topicNames.erase name
    writes := kv'.writes + 1 + 1 }) hm.same
  refine ⟨t, ht, hname, hid ▸ hs, fun i => hm.subs i fun h => h, hm.names, ?_⟩
  rw [hid, hname]
  exact heq

theorem once_deleteTopic (name : String) :
    Keeps (OnStore (Once (.deleteTopic name))) (PubSubService.deleteTopic name) := by
  refine keeps_onStore (Keeps.of_pre fun kv ⟨hc, hh⟩ => ?_)
  refine (ensures_deleteTopic name hc hh).mono (fun _ kv' h => ?_) (fun _ _ h => h ▸ .refl)
  obtain ⟨t, _, hname, hdrop⟩ := h
  rw [hdrop.same]
  exact .single (.deleteTopic _ hdrop.topic hname hdrop.marked hdrop.names)

end Topics

section Snapshots

theorem snapshotGet_eq_ok {kv : Kv} {name : String} {r : SnapshotRecord}
    (h : SnapshotStore.get kv name = .ok r) :
    ∃ id, SnapshotStore.resolveId kv name = .ok id ∧ kv.snaps.get id = some r := by
  simp only [SnapshotStore.get] at h
  cases hi : SnapshotStore.resolveId kv name with
  | error e => rw [hi] at h; cases h
  | ok id =>
    rw [hi] at h
    have hl : SnapshotStore.loadRecord kv id = .ok r := h
    refine ⟨id, rfl, ?_⟩
    unfold SnapshotStore.loadRecord at hl
    cases ht : kv.snaps.get id with
    | none => rw [ht] at hl; cases hl
    | some r' => rw [ht] at hl; cases hl; rfl

theorem snapshotResolve_eq_ok {kv : Kv} {name : String} {id : Nat}
    (h : SnapshotStore.resolveId kv name = .ok id) : kv.snapNames.get name = some id := by
  simp only [SnapshotStore.resolveId] at h
  cases hp : ResourceName.parse "snapshots" name with
  | error e => rw [hp] at h; cases h
  | ok _ =>
    rw [hp] at h
    cases hn : kv.snapNames.get name with
    | none => rw [hn] at h; cases h
    | some j => rw [hn] at h; cases h; rfl

theorem once_createSnapshot (name subscription : String) (labels : SortedMap String String)
    (nowMs : Int) :
    Keeps (OnStore (Once (.createSnapshot name subscription labels)))
      (PubSubService.createSnapshot name subscription labels nowMs) := by
  refine Keeps.of_pre (P := fun s : Engine => Consistent s.kv ∧ s.kv.Healthy) fun s ⟨hc, hh⟩ => ?_
  simp only [PubSubService.createSnapshot, ensures_bind, ensures_get, ensures_liftResult]
  refine ⟨fun sub hsub => ?_, fun _ _ => .refl⟩
  simp only [oldestUnackedPublishTsMs, loadCursor, ensures_bind, ensures_get]
  cases hcur : s.kv.cursors.get sub.id with
  | none => exact .refl
  | some c =>
    simp only [ensures_pure, hcur, onKv, ensures_focus]
    refine ⟨fun expireAtMs _ => ?_, fun _ _ => .refl⟩
    simp only [SnapshotStore.create, ensures_bind, ensures_liftResult, ensures_estateGet,
      ensures_ite, ensures_throw, nextId, ensures_get, putIdSeq, ensures_kvWrite_healthy hh,
      ensures_pure]
    refine ⟨fun _ _ => ⟨fun _ => .refl, fun hname => ?_⟩, fun _ _ => .refl⟩
    refine (ensures_kvWrite_healthy ?_).mpr ((ensures_kvWrite_healthy ?_).mpr ?_)
    · exact fun n => hh n
    · exact fun n => hh n
    · exact .single (.createSnapshot
        (r := ⟨s.kv.counter + 1, name, sub.topic, sub.topicId, labels, c, expireAtMs⟩) _
        (Option.not_isSome_iff_eq_none.mp hname) hsub rfl hcur rfl)

theorem once_updateSnapshotLabels {op : Op} (name : String) (labels : SortedMap String String) :
    Keeps (Once op) (SnapshotStore.updateLabels name labels) := by
  refine Keeps.of_pre fun kv ⟨hc, hh⟩ => ?_
  simp only [SnapshotStore.updateLabels, ensures_bind, ensures_liftResult, ensures_estateGet,
    putSnap, ensures_kvWrite_healthy hh, ensures_pure]
  refine ⟨fun r hr => ?_, fun _ _ => .refl⟩
  obtain ⟨id, _, hs⟩ := snapshotGet_eq_ok hr
  rw [← (hc.snaps.record hs).2] at hs
  refine .single (.updateSnapshot _ hs ?_ ?_ ?_ ?_)
  · rfl
  · rfl
  · rfl
  · rfl

theorem once_deleteSnapshot {op : Op} (name : String) :
    Keeps (Once op) (SnapshotStore.delete name) := by
  refine Keeps.of_pre fun kv ⟨hc, hh⟩ => ?_
  simp only [SnapshotStore.delete, ensures_bind, ensures_liftResult, ensures_estateGet,
    deleteSnapRow, deleteSnapName]
  refine ⟨fun id hid => ?_, fun _ _ => .refl⟩
  refine (ensures_kvWrite_healthy hh).mpr ((ensures_kvWrite_healthy ?_).mpr ?_)
  · exact fun n => hh n
  obtain ⟨r, hr, rfl⟩ := hc.snaps.named (snapshotResolve_eq_ok hid)
  exact .single (.deleteSnapshot _ hr)

theorem moves_sweepSnapshots {op : Op} (nowMs : Int) (rs : List SnapshotRecord) :
    Keeps (Moves op) (SnapshotStore.sweepRecords nowMs rs) := by
  induction rs with
  | nil => exact Keeps.pure _
  | cons r rs ih =>
    refine Keeps.ite (fun _ => ?_) fun _ => ih
    refine Keeps.bind ((once_deleteSnapshot r.name).mono fun _ _ h => h.moves) fun _ => ?_
    exact Keeps.bind ih fun _ => Keeps.pure _

end Snapshots

section Seeks

theorem once_restoreCursor {op : Op} {s : Engine} {subId : Nat} {c : CursorRecord}
    (hh : s.kv.Healthy) (h : seekTarget s.kv op = some (subId, c)) :
    Ensures (restoreCursor subId c) s (fun _ t => Relation.ReflGen (Change op) s.kv t.kv)
      (fun _ t => Relation.ReflGen (Change op) s.kv t.kv) := by
  refine (ensures_restoreCursor c hh _).mono (fun _ t ht => ?_) (fun _ _ h => h)
  obtain ⟨dlv, w, hkv⟩ := ht.rest
  rw [hkv]
  exact .single (.seek dlv w h)

theorem once_seekToSnapshot (name snapshot : String) :
    Keeps (OnStore (Once (.seekToSnapshot name snapshot)))
      (PubSubService.seekToSnapshot name snapshot) := by
  refine Keeps.of_pre (P := fun s : Engine => Consistent s.kv ∧ s.kv.Healthy) fun s ⟨_, hh⟩ => ?_
  simp only [PubSubService.seekToSnapshot, ensures_bind, ensures_get, ensures_liftResult,
    ensures_ite, ensures_throw]
  refine ⟨fun sub hsub => ⟨fun snap hsnap => ⟨fun _ => .refl, fun ht => ?_⟩, fun _ _ => .refl⟩,
    fun _ _ => .refl⟩
  refine once_restoreCursor hh ?_
  simp only [seekTarget, hsub, hsnap]
  rw [if_pos (not_not.mp ht)]

theorem once_seekToTime (name : String) (timeMs : Int) :
    Keeps (OnStore (Once (.seekToTime name timeMs))) (PubSubService.seekToTime name timeMs) := by
  refine Keeps.of_pre (P := fun s : Engine => Consistent s.kv ∧ s.kv.Healthy) fun s ⟨_, hh⟩ => ?_
  simp only [PubSubService.seekToTime, loadCursor, ensures_bind, ensures_get, ensures_liftResult]
  refine ⟨fun sub hsub => ?_, fun _ _ => .refl⟩
  cases hcur : s.kv.cursors.get sub.id with
  | none => exact .refl
  | some c =>
    refine once_restoreCursor hh ?_
    simp only [seekTarget, hsub, hcur, Option.map_some]

end Seeks

section Perform

theorem keeps_sweepMessages {R : Kv → Kv → Prop} [LogFrame R] (nowMs : Int)
    (rows : List (RowKey × MessageRecord)) : Keeps R (sweepMessages nowMs rows) := by
  have hdrop : ∀ seq subIds, Keeps R (dropDeliveryRows seq subIds) := by
    intro seq subIds
    induction subIds with
    | nil => exact Keeps.pure _
    | cons subId subIds ih => exact Keeps.bind (Keeps.ignore (keeps_deleteDlv subId seq)) fun _ => ih
  induction rows with
  | nil => exact Keeps.pure _
  | cons row rows ih =>
    obtain ⟨key, record⟩ := row
    refine Keeps.ite (fun _ => ih) fun _ => ?_
    refine Keeps.bind (fun kv => ensures_succeeds.mpr ?_) fun deleted => ?_
    · exact keeps_kvWrite RowFrame.tick (fun kv => LogFrame.log kv kv.topicSeq _ kv.writes) kv
    refine Keeps.ite (fun _ => ?_) fun _ => ih
    exact Keeps.bind Keeps.get fun _ => Keeps.bind (hdrop _ _) fun _ =>
      Keeps.bind ih fun _ => Keeps.pure _

def Op.isSingle : Op → Bool
  | .createTopic .. => true
  | .updateTopic .. => true
  | .deleteTopic .. => true
  | .createSubscription .. => true
  | .updateSubscription .. => true
  | .deleteSubscription .. => true
  | .detachSubscription .. => true
  | .modifyPushConfig .. => true
  | .createSnapshot .. => true
  | .updateSnapshotLabels .. => true
  | .deleteSnapshot .. => true
  | .seekToSnapshot .. => true
  | .seekToTime .. => true
  | _ => false

theorem seekTarget_eq_none {op : Op} (h : op.isSingle = false) (kv : Kv) : seekTarget kv op = none := by
  cases op with
  | seekToSnapshot => cases h
  | seekToTime => cases h
  | _ => rfl

theorem once_perform (nowMs : Int) {op : Op} (h : op.isSingle = true) :
    Keeps (OnStore (Once op)) (perform nowMs op) := by
  cases op with
  | createTopic => exact (keeps_onStore (once_createTopic _ _ _ _ _ _)).bind_pure _
  | updateTopic => exact (keeps_onStore (once_updateTopic _ _ _ _)).bind_pure _
  | deleteTopic => exact (once_deleteTopic _).bind_pure _
  | createSubscription => exact (once_createSubscription _ _ _ _).bind_pure _
  | updateSubscription => exact (keeps_onStore (once_update _ _)).bind_pure _
  | deleteSubscription =>
    exact (keeps_onStore (once_deleteSubscription _ (Or.inl rfl))).bind_pure _
  | detachSubscription =>
    exact (keeps_onStore (once_named fun r hr => hr ▸ Rewrites.detach r)).bind_pure _
  | modifyPushConfig =>
    exact (keeps_onStore (once_named fun r hr => hr ▸ Rewrites.pushConfig r _)).bind_pure _
  | createSnapshot => exact (once_createSnapshot _ _ _ _).bind_pure _
  | updateSnapshotLabels => exact (keeps_onStore (once_updateSnapshotLabels _ _)).bind_pure _
  | deleteSnapshot => exact (keeps_onStore (once_deleteSnapshot _)).bind_pure _
  | seekToSnapshot => exact (once_seekToSnapshot _ _).bind_pure _
  | seekToTime => exact (once_seekToTime _ _).bind_pure _
  | _ => cases h

theorem moves_perform (nowMs : Int) (op : Op) : Keeps (OnStore (Moves op)) (perform nowMs op) := by
  by_cases hquiet : op.isQuiet = true
  · exact keeps_quiet nowMs hquiet
  by_cases hack : op.isAck = true
  · have := cursorFrame_moves (Or.inr hack)
    exact keeps_ack nowMs hack
  by_cases hsingle : op.isSingle = true
  · exact (once_perform nowMs hsingle).mono fun _ _ h => Once.moves h
  cases op with
  | publish topic messages =>
    have := @logFrame_moves (.publish topic messages) rfl
    exact Keeps.bind (keeps_publish _ _ _) fun _ => Keeps.pure _
  | pull name n =>
    have := @logFrame_moves (.pull name n) rfl
    have := @cursorFrame_moves (.pull name n) (Or.inl rfl)
    exact keeps_lease nowMs rfl
  | leaseForStream streamId =>
    have := @logFrame_moves (.leaseForStream streamId) rfl
    have := @cursorFrame_moves (.leaseForStream streamId) (Or.inl rfl)
    exact keeps_lease nowMs rfl
  | sweepRetention =>
    have := @logFrame_moves .sweepRetention rfl
    refine Keeps.bind (Keeps.bind (keeps_onStore ?_) fun _ => ?_) fun _ => Keeps.pure _
    · exact Keeps.bind Keeps.get fun _ => keeps_sweepMessages _ _
    refine Keeps.bind (Keeps.ignore (keeps_onStore ?_)) fun _ => Keeps.pure _
    exact Keeps.bind Keeps.estateGet fun _ => moves_sweepSubscriptions _ _
  | sweepExpiredSnapshots =>
    refine Keeps.bind (keeps_onStore (Keeps.bind Keeps.estateGet fun _ => ?_)) fun _ => Keeps.pure _
    exact Keeps.bind (Keeps.liftResult _) fun _ => moves_sweepSnapshots _ _
  | _ => first | exact absurd rfl hquiet | exact absurd rfl hack | exact absurd rfl hsingle

theorem keeps_step {R : Engine → Engine → Prop} {s : Engine} {i : Input}
    (h : Keeps R (perform i.nowMs i.op)) : R s (step s i).2 := by
  have hs := h s
  unfold step
  cases hm : perform i.nowMs i.op s with
  | ok r t => exact hs.of_ok hm
  | error e t => exact hs.of_error hm

theorem step_path {s : Engine} (i : Input) (hc : Consistent s.kv) (hh : s.kv.Healthy) :
    Path i.op s.kv (step s i).2.kv :=
  keeps_step (moves_perform i.nowMs i.op) ⟨hc, hh⟩

theorem step_once {s : Engine} {i : Input} (hc : Consistent s.kv) (hh : s.kv.Healthy)
    (h : i.op.isSingle = true) :
    Relation.ReflGen (Change i.op) s.kv (step s i).2.kv :=
  keeps_step (once_perform i.nowMs h) ⟨hc, hh⟩

theorem consistent_final (is : List Input) :
    Consistent (Run.final step start is).kv ∧ (Run.final step start is).kv.Healthy := by
  refine Run.inv_final (C := fun _ => True) (P := fun s : Engine => Consistent s.kv ∧ s.kv.Healthy)
    (fun s i h _ => ?_) ⟨consistent_empty, fun _ => rfl⟩ (fun _ _ => trivial)
  have hev := (step_path i h.1 h.2).evolves h.1
  exact ⟨hev.consistent, hev.healthy h.2⟩

theorem consistent_pre {is : List Input} {tr : Transition} (h : tr ∈ history is) :
    Consistent tr.pre.kv ∧ tr.pre.kv.Healthy := by
  obtain ⟨l, l', hl⟩ := List.append_of_mem h
  obtain ⟨is₁, _, _, _, _, htr, _⟩ := Run.trace_eq_append hl
  rw [htr]
  exact consistent_final is₁

theorem final_inv_of_path {P : Kv → Prop} (h0 : P .empty)
    (hpath : ∀ op kv kv', Consistent kv → Path op kv kv' → P kv → P kv') (is : List Input) :
    P (Run.final step start is).kv := by
  have h : (Consistent (Run.final step start is).kv ∧ (Run.final step start is).kv.Healthy) ∧
      P (Run.final step start is).kv := by
    refine Run.inv_final (C := fun _ => True)
      (P := fun s : Engine => (Consistent s.kv ∧ s.kv.Healthy) ∧ P s.kv) (fun s i h _ => ?_)
      ⟨⟨consistent_empty, fun _ => rfl⟩, h0⟩ (fun _ _ => trivial)
    have hp := step_path i h.1.1 h.1.2
    have hev := hp.evolves h.1.1
    exact ⟨⟨hev.consistent, hev.healthy h.1.2⟩, hpath i.op _ _ h.1.1 hp h.2⟩
  exact h.2

end Perform

end OpenPubusb
