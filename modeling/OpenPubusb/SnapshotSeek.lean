import OpenPubusb.AppendExact
import OpenPubusb.LeaseFailures
import OpenPubusb.ReclaimPaths
import OpenPubusb.SeekTime
import OpenPubusb.SnapshotLifetime

/-! A subscription goes back to a snapshot of its own. What it then delivers is what the
captured cursor has open, with the count of attempts started over. -/

namespace OpenPubusb

open Hoare

/-- A filter that does not compile matches no message. -/
def matchesFilter (filter : String) (attrs : Attributes) : Bool :=
  match compileFilter filter with
  | .ok f => accepts f attrs
  | .error _ => false

/-- The messages of the log that match the filter and that the cursor has open. -/
def openRows (kv : Kv) (sub : SubscriptionRecord) (c : CursorRecord) :
    List (Nat × MessageRecord) :=
  (scanPrefix kv.msg sub.topicId).filter fun row =>
    matchesFilter sub.filter row.2.attributes && !c.isDone row.1

/-- Lease calls of the subscription one after another, and all that they delivered. -/
inductive LeaseRun (sub : SubscriptionRecord) (s : Engine) : List Delivered → Engine → Prop
  | start : LeaseRun sub s [] s
  | call {ds ds' : List Delivered} {t u : Engine} {maxMessages nowMs secs : Int}
      (h : LeaseRun sub s ds t)
      (hcall : leaseNext sub.id sub.topicId maxMessages nowMs secs t = .ok ds' u) :
      LeaseRun sub s (ds ++ ds') u

/-- The state `u` after a seek of the subscription to the cursor `c` in the state `s`;
`tail` was the last message when the cursor was captured. -/
structure RoundTrip (tail : Nat) (c : CursorRecord) (sub : SubscriptionRecord) (s u : Engine) :
    Prop where
  delivers : ∀ maxMessages nowMs secs, 0 < maxMessages → ∃ ds v,
    leaseNext sub.id sub.topicId maxMessages nowMs secs u = .ok ds v ∧
    ds.map (fun d => (d.seq, d.message)) = (openRows s.kv sub c).take maxMessages.toNat
  next : ∀ ds v, LeaseRun sub u ds v → ∀ maxMessages nowMs secs ds' w,
    leaseNext sub.id sub.topicId maxMessages nowMs secs v = .ok ds' w →
    ∀ d ∈ ds', (∀ d₀ ∈ ds, d₀.seq ≠ d.seq) → d.deliveryAttempt = 1
  published : ∀ q m, tail < q → s.kv.msg.get ⟨sub.topicId, q⟩ = some m → c.isDone q = false
  cleared : ∀ q, u.leases.get sub.id q = none ∧ u.kv.dlv.get ⟨sub.id, q⟩ = none
  others : ∀ i ≠ sub.id, u.kv.cursors.get i = s.kv.cursors.get i ∧
    ∀ q, u.leases.get i q = s.leases.get i q ∧ u.kv.dlv.get ⟨i, q⟩ = s.kv.dlv.get ⟨i, q⟩

/-- The names still lead to the subscription, its topic and the snapshot. -/
structure NamesKept (kv : Kv) (sub : SubscriptionRecord) (snap : SnapshotRecord) : Prop where
  subscription : ∃ r, SubscriptionStore.get kv sub.name = .ok r ∧ r.id = sub.id
  topic : ∃ r, TopicStore.get kv sub.topic = .ok r ∧ r.id = sub.topicId
  snapshot : ∃ r, SnapshotStore.get kv snap.name = .ok r ∧ r.id = snap.id

section Capture

variable {s t : Engine} {nowMs : Int} {name subscription : String}
  {labels : SortedMap String String} {sub : SubscriptionRecord} {c : CursorRecord}
  {snap : SnapshotRecord}

theorem ensures_createSnapshot_captured (hh : s.kv.Healthy)
    (hsub : SubscriptionStore.get s.kv subscription = .ok sub)
    (hc : s.kv.cursors.get sub.id = some c) :
    Ensures (PubSubService.createSnapshot name subscription labels nowMs) s
      (fun r t => Captured s.kv name sub c r.expireAtMs r t) (fun _ _ => True) := by
  simp only [PubSubService.createSnapshot, loadCursor, oldestUnackedPublishTsMs, ensures_bind,
    ensures_get, hsub, liftResult, ensures_pure, hc]
  refine (ensures_liftResult).mpr ⟨fun expireAtMs _ => ?_, fun _ _ => trivial⟩
  refine (ensures_create_captured hh).mono (fun r t h => ?_) fun _ _ _ => trivial
  rw [h.expires]
  exact h

theorem snapshotGet_of {kv : Kv} {id : Nat} {x : ResourceName "snapshots"}
    (hparse : ResourceName.parse "snapshots" name = .ok x) (hn : kv.snapNames.get name = some id)
    (hs : kv.snaps.get id = some snap) : SnapshotStore.get kv name = .ok snap := by
  simp only [SnapshotStore.get, SnapshotStore.resolveId, SnapshotStore.loadRecord, hparse, hn, hs,
    bind, Except.bind, pure, Except.pure]

theorem ensures_createSnapshot_named (hh : s.kv.Healthy)
    (hsub : SubscriptionStore.get s.kv subscription = .ok sub)
    (hc : s.kv.cursors.get sub.id = some c) :
    Ensures (PubSubService.createSnapshot name subscription labels nowMs) s
      (fun r t => SnapshotStore.get t.kv name = .ok r ∧ ∃ idSeq snaps snapNames w, t.kv = { s.kv with
        idSeq := idSeq, snaps := snaps, snapNames := snapNames, writes := w })
      (fun _ _ => True) := by
  simp only [PubSubService.createSnapshot, loadCursor, oldestUnackedPublishTsMs, ensures_bind,
    ensures_get, hsub, liftResult, ensures_pure, hc]
  refine (ensures_liftResult).mpr ⟨fun expireAtMs _ => ?_, fun _ _ => trivial⟩
  simp only [ensures_onKv, SnapshotStore.create, ensures_bind, ensures_liftResult,
    ensures_estateGet, ensures_ite, ensures_throw, nextId, ensures_get, putIdSeq,
    ensures_kvWrite_healthy hh, ensures_pure]
  refine ⟨fun x hparse => ⟨fun _ => trivial, fun _ => ?_⟩, fun _ _ => trivial⟩
  refine (ensures_kvWrite_healthy ?_).mpr ((ensures_kvWrite_healthy ?_).mpr ?_)
  · exact fun n => hh n
  · exact fun n => hh n
  · exact ⟨snapshotGet_of hparse (SortedMap.get_insert_self ..) (SortedMap.get_insert_self ..),
      _, _, _, _, rfl⟩

theorem step_createSnapshot
    (h : PubSubService.createSnapshot name subscription labels nowMs s = .ok snap t) :
    (step s ⟨nowMs, .createSnapshot name subscription labels⟩).2 = t := by
  simp only [step, perform, bind, EStateM.bind, h, pure, EStateM.pure]

theorem seekToSnapshot_restores (hh : s.kv.Healthy)
    (hsub : SubscriptionStore.get s.kv subscription = .ok sub)
    (hsnap : SnapshotStore.get s.kv name = .ok snap) (ht : snap.topicId = sub.topicId) :
    ∃ u, PubSubService.seekToSnapshot subscription name s = .ok () u ∧
      Restored sub.id snap.cursor s u := by
  have hseek : Ensures (PubSubService.seekToSnapshot subscription name) s
      (fun _ u => Restored sub.id snap.cursor s u) (fun _ _ => False) := by
    simp only [PubSubService.seekToSnapshot, ensures_bind, ensures_get, hsub, hsnap, liftResult,
      ensures_pure]
    rw [if_neg (not_not.mpr ht)]
    exact ensures_restoreCursor _ hh _
  cases hr : PubSubService.seekToSnapshot subscription name s with
  | error e u => exact (hseek.of_error hr).elim
  | ok a u => exact ⟨u, rfl, hseek.of_ok hr⟩

end Capture

section History

variable {s : Engine} {kv kv' : Kv} {op : Op} {i : Input}

theorem Change.snap_known (h : Change op kv kv') {j : Nat} {x' : SnapshotRecord}
    (hj : j ≤ kv.counter) (hx' : kv'.snaps.get j = some x') :
    ∃ x, kv.snaps.get j = some x ∧ x'.topicId = x.topicId ∧ x'.cursor = x.cursor := by
  cases h with
  | createSnapshot w _ _ _ _ hid =>
    rw [SortedMap.get_insert_ne _ _ (by omega)] at hx'
    exact ⟨x', hx', rfl, rfl⟩
  | updateSnapshot w hr _ _ ht hcur =>
    rw [SortedMap.get_insert] at hx'
    split_ifs at hx' with hid
    · cases hx'
      exact ⟨_, hid ▸ hr, ht, hcur⟩
    · exact ⟨x', hx', rfl, rfl⟩
  | deleteSnapshot =>
    rw [SortedMap.get_erase] at hx'
    split_ifs at hx'
    exact ⟨x', hx', rfl, rfl⟩
  | _ => exact ⟨x', hx', rfl, rfl⟩

theorem step_snap_known (hc : Consistent s.kv) (hh : s.kv.Healthy) {j : Nat} {x' : SnapshotRecord}
    (hj : j ≤ s.kv.counter) (hx' : (step s i).2.kv.snaps.get j = some x') :
    ∃ x, s.kv.snaps.get j = some x ∧ x'.topicId = x.topicId ∧ x'.cursor = x.cursor := by
  cases hsingle : i.op.isSingle with
  | false => exact ((step_path i hc hh).kept hsingle).snap hx'
  | true =>
    have hone := step_once hc hh hsingle
    revert hone hx'
    generalize (step s i).2.kv = kv'
    intro hx' hone
    cases hone with
    | refl => exact ⟨x', hx', rfl, rfl⟩
    | single hch => exact hch.snap_known hj hx'

/-- The records of the ids that were given out are still what they were. -/
structure Remains (kv kv' : Kv) : Prop where
  counter : kv.counter ≤ kv'.counter
  record : ∀ {id r'}, id ≤ kv.counter → kv'.subs.get id = some r' →
    ∃ r, kv.subs.get id = some r ∧ r'.topicId = r.topicId ∧ r'.filter = r.filter
  snap : ∀ {id x'}, id ≤ kv.counter → kv'.snaps.get id = some x' →
    ∃ x, kv.snaps.get id = some x ∧ x'.topicId = x.topicId ∧ x'.cursor = x.cursor

theorem Remains.step (hc : Consistent s.kv) (hh : s.kv.Healthy) (h : Remains kv s.kv) (i : Input) :
    Remains kv (OpenPubusb.step s i).2.kv := by
  have hev := (step_path i hc hh).evolves hc
  refine ⟨h.counter.trans hev.counter, fun {id r'} hid hr' => ?_, fun {id x'} hid hx' => ?_⟩
  · obtain ⟨r₁, hr₁, ht₁, hf₁⟩ := (step_record hc hh i hr').kept (hid.trans h.counter)
    obtain ⟨r, hr, ht, hf⟩ := h.record hid hr₁
    exact ⟨r, hr, ht₁.trans ht, hf₁.trans hf⟩
  · obtain ⟨x₁, hx₁, ht₁, hcur₁⟩ := step_snap_known hc hh (hid.trans h.counter) hx'
    obtain ⟨x, hx, ht, hcur⟩ := h.snap hid hx₁
    exact ⟨x, hx, ht₁.trans ht, hcur₁.trans hcur⟩

theorem remains_final (hc : Consistent s.kv) (hh : s.kv.Healthy) (is : List Input) :
    Remains s.kv (Run.final step s is).kv := by
  have hstart : Remains s.kv s.kv :=
    ⟨le_refl _, fun _ hr => ⟨_, hr, rfl, rfl⟩, fun _ hx => ⟨_, hx, rfl, rfl⟩⟩
  refine (Run.inv_final (C := fun _ => True)
    (P := fun t : Engine => Consistent t.kv ∧ t.kv.Healthy ∧ Remains s.kv t.kv)
    (fun t i h _ => ?_) ⟨hc, hh, hstart⟩ fun _ _ => trivial).2.2
  have hev := (step_path i h.1 h.2.1).evolves h.1
  exact ⟨hev.consistent, hev.healthy h.2.1, h.2.2.step h.1 h.2.1 i⟩

end History

section Deliveries

variable {u v : Engine} {subId topicId q : Nat} {c : CursorRecord} {ds : List Delivered}
  {maxMessages nowMs secs : Int}

/-- The subscription has no lease and no row of the message. -/
def Engine.Unleased (s : Engine) (subId q : Nat) : Prop :=
  s.leases.get subId q = none ∧ s.kv.dlv.get ⟨subId, q⟩ = none

theorem Engine.Unleased.lastDelivery (h : u.Unleased subId q) : u.lastDelivery subId q = none := by
  rw [Engine.lastDelivery, h.1, h.2]
  rfl

theorem Engine.Unleased.priorAttempts (h : u.Unleased subId q) : u.priorAttempts subId q = 0 := by
  rw [Engine.priorAttempts, h.lastDelivery]
  rfl

theorem not_shouldDeadLetter_zero (policy : DeadLetterPolicy) :
    shouldDeadLetter 0 policy = false := by
  rw [Bool.eq_false_iff]
  intro h
  simp only [shouldDeadLetter, Bool.and_eq_true, decide_eq_true_eq] at h
  omega

theorem Engine.Unleased.deadLetters {a : LeaseArgs} {row : Nat × MessageRecord}
    (h : u.Unleased a.subId row.1) : deadLetters a u c row = false := by
  rw [OpenPubusb.deadLetters, h.priorAttempts, not_shouldDeadLetter_zero, Bool.and_false,
    Bool.false_and]

theorem Engine.Unleased.leasable {a : LeaseArgs} {row : Nat × MessageRecord}
    (h : u.Unleased a.subId row.1) :
    leasable a u c row = (accepts a.filter row.2.attributes && !c.isDone row.1) := by
  have hheld : u.heldAt a.nowMs a.subId row.1 = false := by
    rw [Engine.heldAt, h.1]
    rfl
  have hback : (reclaimPolicy u.kv a.subId).backsOff a.nowMs none = false := by
    simp [ReclaimPolicy.backsOff]
  rw [OpenPubusb.leasable, h.deadLetters, ready, hheld, h.lastDelivery, hback,
    Bool.and_comm (accepts _ _)]
  simp only [Bool.not_false, Bool.and_true]

/-- Where the subscription has no lease and no row, a lease call hands out the first open
messages that its filter accepts. -/
theorem leaseNext_first (hh : u.kv.Healthy) (hc : u.kv.cursors.get subId = some c)
    (hfree : ∀ q, u.Unleased subId q) (hmax : 0 < maxMessages) :
    ∃ ds v, leaseNext subId topicId maxMessages nowMs secs u = .ok ds v ∧
      ds.map (fun d => (d.seq, d.message)) = ((scanPrefix u.kv.msg topicId).filter fun row =>
        accepts (u.filterOf subId) row.2.attributes && !c.isDone row.1).take
          maxMessages.toNat := by
  have hnone : NoneUndeliverable (leaseArgs u subId topicId maxMessages nowMs secs) u c := by
    rintro x _ ⟨_, hdue, _⟩
    have hzero : u.priorAttempts (leaseArgs u subId topicId maxMessages nowMs secs).subId x.seq = 0 :=
      (hfree x.seq).priorAttempts
    rw [hzero, not_shouldDeadLetter_zero] at hdue
    cases hdue
  obtain ⟨ds, v, hok⟩ := (leaseNext_ok_iff hh topicId hmax nowMs secs hc).mpr hnone
  have hcon := ((ensures_leaseNext_exact topicId nowMs secs hmax hc).of_ok hok).contract hc
  have hreturned : ds = (leasedRows (leaseArgs u subId topicId maxMessages nowMs secs) u c).map
      fun row => deliver (leaseArgs u subId topicId maxMessages nowMs secs) row.1 row.2
        (satSuccU32 (u.priorAttempts subId row.1)) := hcon.returned
  have hrows : leasedRows (leaseArgs u subId topicId maxMessages nowMs secs) u c =
      ((scanPrefix u.kv.msg topicId).filter fun row =>
        accepts (u.filterOf subId) row.2.attributes && !c.isDone row.1).take maxMessages.toNat :=
    congrArg (fun p => ((scanPrefix u.kv.msg topicId).filter p).take maxMessages.toNat)
      (funext fun row => Engine.Unleased.leasable (hfree row.1))
  refine ⟨ds, v, hok, ?_⟩
  rw [hreturned, List.map_map, ← hrows]
  exact List.map_id _

/-- A lease call delivers a message without lease and row as attempt one, or leaves it so. -/
theorem leaseNext_unleased (hfree : u.Unleased subId q)
    (hok : leaseNext subId topicId maxMessages nowMs secs u = .ok ds v) :
    (∀ d ∈ ds, d.seq = q → d.deliveryAttempt = 1) ∧
      ((∀ d ∈ ds, d.seq ≠ q) → v.Unleased subId q) := by
  by_cases hmax : maxMessages ≤ 0
  · rw [leaseNext, if_pos hmax] at hok
    cases hok
    exact ⟨by simp, fun _ => hfree⟩
  · cases hc : u.kv.cursors.get subId with
    | none =>
      obtain ⟨e, he⟩ := leaseNext_no_cursor topicId nowMs secs (not_le.mp hmax) hc
      rw [he] at hok
      cases hok
    | some c =>
      have hcon := ((ensures_leaseNext_exact topicId nowMs secs (not_le.mp hmax) hc).of_ok
        hok).contract hc
      have hreturned : ds = (leasedRows (leaseArgs u subId topicId maxMessages nowMs secs) u c).map
          fun row => deliver (leaseArgs u subId topicId maxMessages nowMs secs) row.1 row.2
            (satSuccU32 (u.priorAttempts subId row.1)) := hcon.returned
      refine ⟨fun d hd hq => ?_, fun hnot => ?_⟩
      · rw [hreturned] at hd
        obtain ⟨row, _, rfl⟩ := List.mem_map.mp hd
        have hrow : row.1 = q := hq
        rw [hrow, hfree.priorAttempts]
        rfl
      · have hsame : v.leases.get subId q = u.leases.get subId q ∧
            v.kv.dlv.get ⟨subId, q⟩ = u.kv.dlv.get ⟨subId, q⟩ := by
          refine hcon.others subId q fun _ row hrow hq => ⟨?_, ?_⟩
          · rw [Bool.eq_false_iff]
            intro hlease
            have hmem : deliver (leaseArgs u subId topicId maxMessages nowMs secs) row.1 row.2
                (satSuccU32 (u.priorAttempts subId row.1)) ∈ ds := by
              rw [hreturned, leasedRows_eq]
              exact List.mem_map_of_mem (List.mem_filter.mpr ⟨hrow, hlease⟩)
            exact hnot _ hmem hq
          · exact Engine.Unleased.deadLetters (hq ▸ hfree)
        rw [Engine.Unleased, hsame.1, hsame.2]
        exact hfree

/-- Over any lease calls, what was not delivered yet has no lease and no row. -/
theorem LeaseRun.unleased {sub : SubscriptionRecord} (h : LeaseRun sub u ds v)
    (hfree : u.Unleased sub.id q) (hnot : ∀ d ∈ ds, d.seq ≠ q) : v.Unleased sub.id q := by
  induction h with
  | start => exact hfree
  | call _ hcall ih =>
    rw [List.forall_mem_append] at hnot
    exact (leaseNext_unleased (ih hnot.1) hcall).2 hnot.2

end Deliveries

section Publishing

variable {s : Engine} {topicName : String} {r : TopicRecord}

def oneByte : PublishMessage := ⟨[1], ∅, ""⟩

theorem step_publish_one (hh : s.kv.Healthy) (ht : TopicStore.get s.kv topicName = .ok r) :
    ∃ m w, (step s ⟨0, .publish topicName [oneByte]⟩).2.kv =
      { s.kv with
        topicSeq := s.kv.topicSeq.insert r.id (TopicStore.currentTail s.kv r.id + 1)
        msg := s.kv.msg.insert ⟨r.id, TopicStore.currentTail s.kv r.id + 1⟩ m
        writes := w } := by
  have hvalid : TopicStore.validateBatch [oneByte] = .ok () := by decide +kernel
  refine ensures_step (P := fun t => ∃ m w, t.kv = { s.kv with
        topicSeq := s.kv.topicSeq.insert r.id (TopicStore.currentTail s.kv r.id + 1)
        msg := s.kv.msg.insert ⟨r.id, TopicStore.currentTail s.kv r.id + 1⟩ m
        writes := w }) ?_
  simp only [perform, PubSubService.publish, TopicStore.append, TopicStore.appendAll,
    TopicStore.nextSeq, putTopicSeq, putMsg, ensures_bind, ensures_onKv, ensures_get,
    ensures_estateGet, ht,
    liftResult, hvalid, ensures_pure, ensures_kvWrite_healthy hh]
  refine (ensures_kvWrite_healthy ?_).mpr ?_
  · exact fun n => hh n
  · exact ⟨_, _, rfl⟩

/-- Messages can be published to the topic until it has any number of them. -/
theorem exists_published (hh : s.kv.Healthy) (ht : TopicStore.get s.kv topicName = .ok r)
    (n : Nat) :
    ∃ js, (∃ topicSeq msg w, (Run.final step s js).kv =
        { s.kv with topicSeq := topicSeq, msg := msg, writes := w }) ∧
      TopicStore.currentTail (Run.final step s js).kv r.id =
        TopicStore.currentTail s.kv r.id + n ∧
      ∀ q, TopicStore.currentTail s.kv r.id < q → q ≤ TopicStore.currentTail s.kv r.id + n →
        ((Run.final step s js).kv.msg.get ⟨r.id, q⟩).isSome := by
  induction n with
  | zero =>
    refine ⟨[], ⟨s.kv.topicSeq, s.kv.msg, s.kv.writes, rfl⟩, rfl, fun q hlt hle => ?_⟩
    omega
  | succ n ih =>
    obtain ⟨js, ⟨topicSeq, msg, w, hkv⟩, htail, hrows⟩ := ih
    have hh' : (Run.final step s js).kv.Healthy := by
      rw [hkv]
      exact fun k => hh k
    have ht' : TopicStore.get (Run.final step s js).kv topicName = .ok r := by
      rw [hkv]
      exact ht
    obtain ⟨m, w', hstep⟩ := step_publish_one hh' ht'
    refine ⟨js ++ [⟨0, .publish topicName [oneByte]⟩], ?_, ?_, fun q hlt hle => ?_⟩
    · rw [Run.final_append, Run.final, Run.final, hstep, hkv]
      exact ⟨_, _, w', rfl⟩
    · rw [Run.final_append, Run.final, Run.final, hstep, TopicStore.currentTail,
        SortedMap.get_insert_self, Option.getD_some, htail]
      omega
    · rw [Run.final_append, Run.final, Run.final, hstep, htail, SortedMap.get_insert]
      split_ifs with hq
      · rfl
      · refine hrows q hlt ?_
        have hne : q ≠ TopicStore.currentTail s.kv r.id + n + 1 := fun h => hq (by rw [h])
        omega

theorem NamesKept.of_eq {kv kv' : Kv} {sub : SubscriptionRecord} {snap : SnapshotRecord}
    (h : NamesKept kv sub snap)
    (hkv : ∃ topicSeq msg w, kv' = { kv with topicSeq := topicSeq, msg := msg, writes := w }) :
    NamesKept kv' sub snap := by
  obtain ⟨topicSeq, msg, w, rfl⟩ := hkv
  exact ⟨h.subscription, h.topic, h.snapshot⟩

end Publishing

section Seeking

variable {is js : List Input} {nowMs : Int} {name subscription : String}
  {labels : SortedMap String String} {sub : SubscriptionRecord} {snap : SnapshotRecord}
  {c : CursorRecord} {t : Engine}

/-- The seek finds the captured cursor, and leaves the filter that the subscription had. -/
theorem seek_restores
    (hsub : SubscriptionStore.get (Run.final step start is).kv subscription = .ok sub)
    (hc : (Run.final step start is).kv.cursors.get sub.id = some c)
    (hcreate : PubSubService.createSnapshot name subscription labels nowMs
      (Run.final step start is) = .ok snap t)
    (hkept : NamesKept (Run.final step t js).kv sub snap) :
    ∃ u, PubSubService.seekToSnapshot sub.name snap.name (Run.final step t js) = .ok () u ∧
      Restored sub.id c (Run.final step t js) u ∧ u.kv.Healthy ∧
      u.filterOf sub.id = (compileFilter sub.filter).toOption.join := by
  have hwf := wellFormed_final is
  obtain ⟨hcons, hh⟩ := consistent_final is
  have hcap := (ensures_createSnapshot_captured hh hsub hc).of_ok hcreate
  have hrun : ∀ ks, Run.final step start (is ++ ⟨nowMs, .createSnapshot name subscription labels⟩ ::
      ks) = Run.final step t ks := by
    intro ks
    rw [Run.final_append, Run.final, step_createSnapshot hcreate]
  obtain ⟨hcons₁, hh₁⟩ := consistent_final (is ++
    [⟨nowMs, .createSnapshot name subscription labels⟩])
  rw [hrun, Run.final] at hcons₁ hh₁
  have hwf₂ := wellFormed_final (is ++ ⟨nowMs, .createSnapshot name subscription labels⟩ :: js)
  obtain ⟨hcons₂, hh₂⟩ := consistent_final (is ++
    ⟨nowMs, .createSnapshot name subscription labels⟩ :: js)
  have hrest := remains_final hcons hh (⟨nowMs, .createSnapshot name subscription labels⟩ :: js)
  rw [Run.final, step_createSnapshot hcreate] at hrest
  have hrest₁ := remains_final hcons₁ hh₁ js
  rw [hrun] at hwf₂ hcons₂ hh₂
  obtain ⟨r, hr, hid⟩ := hkept.subscription
  have hrow := hwf₂.get_ok hr
  rw [hid] at hrow
  have hold : sub.id ≤ (Run.final step start is).kv.counter :=
    hcons.sub_known (by rw [hwf.get_ok hsub]; rfl)
  obtain ⟨r₀, hr₀, htopic, hfilter⟩ := hrest.record hold hrow
  rw [hwf.get_ok hsub, Option.some.injEq] at hr₀
  subst hr₀
  obtain ⟨x, hx, hxid⟩ := hkept.snapshot
  obtain ⟨id, _, hxrow⟩ := snapshotGet_eq_ok hx
  have hxat : id = snap.id := by rw [← hxid, (hcons₂.snaps.record hxrow).2]
  have hknown : snap.id ≤ t.kv.counter := by
    have ha : t.kv.Allocated snap.id .snapshot := by
      change (t.kv.snaps.get snap.id).isSome
      rw [hcap.row]
      rfl
    exact hcons₁.known ha
  rw [hxat] at hxrow
  obtain ⟨x₀, hx₀, hxtopic, hxcur⟩ := hrest₁.snap hknown hxrow
  rw [hcap.row, Option.some.injEq] at hx₀
  subst hx₀
  have htopics : x.topicId = r.topicId := by rw [hxtopic, hcap.topic.2, htopic]
  obtain ⟨u, hseek, hrestored⟩ := seekToSnapshot_restores hh₂ hr hx htopics
  rw [hid, hxcur, hcap.cursor] at hrestored
  refine ⟨u, hseek, hrestored, ?_, ?_⟩
  · obtain ⟨dlv, w, hkv⟩ := hrestored.rest
    rw [hkv]
    exact fun k => hh₂ k
  · have hu : (step (Run.final step t js) ⟨0, .seekToSnapshot sub.name snap.name⟩).2 = u := by
      simp only [step, perform, bind, EStateM.bind, hseek, pure, EStateM.pure]
    have hsound := sound_final (is ++ ⟨nowMs, .createSnapshot name subscription labels⟩ ::
      (js ++ [⟨0, .seekToSnapshot sub.name snap.name⟩]))
    rw [hrun, Run.final_append, Run.final, Run.final, hu] at hsound
    rw [hsound.filterOf (by rw [hrestored.cursor]; rfl), storedFilter]
    obtain ⟨dlv, w, hkv⟩ := hrestored.rest
    rw [hkv]
    simp only [hrow, Option.map_some, Option.getD_some, hfilter]
    cases compileFilter sub.filter <;> rfl

theorem Restored.free {subId : Nat} {s u : Engine} (h : Restored subId c s u) (q : Nat) :
    u.Unleased subId q := by
  rw [Engine.Unleased, h.leases, h.dlv, if_pos rfl]
  exact ⟨rfl, if_pos rfl⟩

theorem Restored.roundTrip {tail : Nat} {s u : Engine} {f : Option Expr}
    (h : Restored sub.id c s u) (hh : u.kv.Healthy)
    (hfilter : u.filterOf sub.id = (compileFilter sub.filter).toOption.join)
    (hcompiles : compileFilter sub.filter = .ok f)
    (hopen : ∀ q, tail < q → c.isDone q = false) : RoundTrip tail c sub s u := by
  have hf : u.filterOf sub.id = f := by
    rw [hfilter, hcompiles]
    rfl
  have hmatches : ∀ attrs, matchesFilter sub.filter attrs = accepts f attrs := by
    intro attrs
    rw [matchesFilter, hcompiles]
  obtain ⟨dlv, w, hkv⟩ := h.rest
  refine ⟨fun maxMessages nowMs secs hmax => ?_, ?_, fun q _ hq _ => hopen q hq, h.free,
    fun i hi => ⟨?_, fun q => ?_⟩⟩
  · obtain ⟨ds, v, hok, hrows⟩ :=
      @leaseNext_first u sub.id sub.topicId c maxMessages nowMs secs hh h.cursor h.free hmax
    refine ⟨ds, v, hok, ?_⟩
    rw [hrows, openRows, hf, hkv]
    simp only [hmatches]
  · intro ds v hrun maxMessages nowMs secs ds' w hcall d hd hnew
    exact (leaseNext_unleased (hrun.unleased (h.free d.seq) hnew) hcall).1 d hd rfl
  · rw [hkv]
    exact SortedMap.get_insert_ne _ _ hi
  · rw [h.leases, h.dlv, if_neg hi, if_neg hi]
    exact ⟨rfl, rfl⟩

/-- A lease call after the seek hands out a message that no filter keeps back. -/
theorem Restored.first_row {s u : Engine} (h : Restored sub.id c s u) (hh : u.kv.Healthy)
    (hfilter : u.filterOf sub.id = none) {q : Nat} {m : MessageRecord}
    (hm : s.kv.msg.get ⟨sub.topicId, q⟩ = some m) (hq : c.isDone q = false) :
    ∃ ds v, leaseNext sub.id sub.topicId 1 0 0 u = .ok ds v ∧ ds ≠ [] := by
  obtain ⟨ds, v, hok, hrows⟩ :=
    @leaseNext_first u sub.id sub.topicId c 1 0 0 hh h.cursor h.free (by decide)
  refine ⟨ds, v, hok, ?_⟩
  rintro rfl
  obtain ⟨dlv, w, hkv⟩ := h.rest
  have hmem : (q, m) ∈ (scanPrefix u.kv.msg sub.topicId).filter fun row =>
      accepts (u.filterOf sub.id) row.2.attributes && !c.isDone row.1 := by
    rw [List.mem_filter, hfilter, hkv]
    exact ⟨mem_scanPrefix.mpr hm, by simp [accepts, hq]⟩
  rw [List.map_nil] at hrows
  rcases List.take_eq_nil_iff.mp hrows.symm with hzero | hnil
  · cases hzero
  · rw [hnil] at hmem
    cases hmem

end Seeking

/-- A snapshot of a subscription brings back, after any run that keeps the subscription,
its topic and the snapshot, exactly what it captured: if and only if the filter of the
subscription compiles and its cursor has nothing done past the last message. -/
theorem snapshot_round_trip_iff {is : List Input} {nowMs : Int} {name subscription : String}
    {labels : SortedMap String String} {sub : SubscriptionRecord} {c : CursorRecord}
    {snap : SnapshotRecord} {t : Engine}
    (hsub : SubscriptionStore.get (Run.final step start is).kv subscription = .ok sub)
    (htopic : ∃ r, TopicStore.get (Run.final step start is).kv sub.topic = .ok r ∧
      r.id = sub.topicId)
    (hc : (Run.final step start is).kv.cursors.get sub.id = some c)
    (hcreate : PubSubService.createSnapshot name subscription labels nowMs
      (Run.final step start is) = .ok snap t) :
    (∀ js, NamesKept (Run.final step t js).kv sub snap → ∃ u,
      PubSubService.seekToSnapshot subscription name (Run.final step t js) = .ok () u ∧
      RoundTrip (TopicStore.currentTail (Run.final step start is).kv sub.topicId) c sub
        (Run.final step t js) u) ↔
      (∃ f, compileFilter sub.filter = .ok f) ∧
        ∀ q, TopicStore.currentTail (Run.final step start is).kv sub.topicId < q →
          c.isDone q = false := by
  have hwf := wellFormed_final is
  obtain ⟨hcons, hh⟩ := consistent_final is
  have hcap := (ensures_createSnapshot_captured hh hsub hc).of_ok hcreate
  have hsubName : sub.name = subscription := by
    obtain ⟨id, hn, hs⟩ := get_eq_ok hsub
    exact hcons.subs.name_eq hn hs
  rw [← hsubName, ← hcap.name]
  constructor
  · intro h
    obtain ⟨hget, idSeq, snaps, snapNames, w, hkv⟩ :=
      (ensures_createSnapshot_named hh hsub hc).of_ok hcreate
    have hht : t.kv.Healthy := by
      rw [hkv]
      exact fun n => hh n
    obtain ⟨topic, ht, htopicId⟩ := htopic
    have htt : TopicStore.get t.kv sub.topic = .ok topic := by
      rw [hkv]
      exact ht
    have hnow : NamesKept t.kv sub snap := by
      refine ⟨⟨sub, ?_, rfl⟩, ⟨topic, htt, htopicId⟩, ⟨snap, ?_, rfl⟩⟩
      · rw [hkv, hsubName]
        exact hsub
      · rw [hcap.name]
        exact hget
    have htail : TopicStore.currentTail t.kv topic.id =
        TopicStore.currentTail (Run.final step start is).kv sub.topicId := by
      rw [hkv, htopicId]
      rfl
    have hopen : ∀ q, TopicStore.currentTail (Run.final step start is).kv sub.topicId < q →
        c.isDone q = false := by
      intro q hq
      obtain ⟨js, hjs, _, hrows⟩ := exists_published hht htt
        (q - TopicStore.currentTail (Run.final step start is).kv sub.topicId)
      obtain ⟨u, _, hround⟩ := h js (hnow.of_eq hjs)
      rw [htail, htopicId] at hrows
      obtain ⟨m, hm⟩ := Option.isSome_iff_exists.mp (hrows q hq (by omega))
      exact hround.published q m hq hm
    refine ⟨?_, hopen⟩
    cases hcompile : compileFilter sub.filter with
    | ok f => exact ⟨f, rfl⟩
    | error e =>
      obtain ⟨js, hjs, _, hrows⟩ := exists_published hht htt 1
      rw [htail, htopicId] at hrows
      obtain ⟨m, hm⟩ := Option.isSome_iff_exists.mp (hrows _ (Nat.lt_succ_self _) (le_refl _))
      obtain ⟨u, hseek, hround⟩ := h js (hnow.of_eq hjs)
      obtain ⟨u', hseek', hrestored, hhu, hfilter⟩ :=
        seek_restores hsub hc hcreate (hnow.of_eq hjs)
      rw [hseek, EStateM.Result.ok.injEq] at hseek'
      rw [← hseek'.2] at hrestored hhu hfilter
      rw [hcompile] at hfilter
      obtain ⟨ds, v, hok, hne⟩ :=
        hrestored.first_row hhu hfilter hm (hopen _ (Nat.lt_succ_self _))
      obtain ⟨ds', v', hok', hnone⟩ := hround.delivers 1 0 0 (by decide)
      have hempty : openRows (Run.final step t js).kv sub c = [] := by
        refine List.filter_eq_nil_iff.mpr fun row _ => ?_
        rw [matchesFilter, hcompile]
        exact Bool.false_ne_true
      rw [hok, EStateM.Result.ok.injEq] at hok'
      rw [hempty, List.take_nil, ← hok'.1] at hnone
      exact absurd (List.map_eq_nil_iff.mp hnone) hne
  · rintro ⟨⟨f, hcompiles⟩, hopen⟩ js hkept
    obtain ⟨u, hseek, hrestored, hhu, hfilter⟩ := seek_restores hsub hc hcreate hkept
    exact ⟨u, hseek, hrestored.roundTrip hhu hfilter hcompiles hopen⟩

/-- Whether the name of the topic leads to the topic of the subscription. -/
def topicKept (kv : Kv) (sub : SubscriptionRecord) : Bool :=
  match TopicStore.get kv sub.topic with
  | .ok r => r.id = sub.topicId
  | .error _ => false

theorem exists_of_topicKept {kv : Kv} {sub : SubscriptionRecord} (h : topicKept kv sub = true) :
    ∃ r, TopicStore.get kv sub.topic = .ok r ∧ r.id = sub.topicId := by
  unfold topicKept at h
  split at h
  · rename_i r hr
    exact ⟨r, hr, of_decide_eq_true h⟩
  · cases h

/-- The subscription, its cursor and the new snapshot, when one is captured. -/
def captureOf (s : Engine) (name subscription : String) :
    Option (SubscriptionRecord × CursorRecord × SnapshotRecord × Engine) :=
  match SubscriptionStore.get s.kv subscription with
  | .error _ => none
  | .ok sub =>
    match s.kv.cursors.get sub.id, PubSubService.createSnapshot name subscription ∅ 0 s with
    | some c, .ok snap t => some (sub, c, snap, t)
    | _, _ => none

theorem captureOf_eq_some {s t : Engine} {name subscription : String} {sub : SubscriptionRecord}
    {c : CursorRecord} {snap : SnapshotRecord}
    (h : captureOf s name subscription = some (sub, c, snap, t)) :
    SubscriptionStore.get s.kv subscription = .ok sub ∧ s.kv.cursors.get sub.id = some c ∧
      PubSubService.createSnapshot name subscription ∅ 0 s = .ok snap t := by
  unfold captureOf at h
  cases hsub : SubscriptionStore.get s.kv subscription with
  | error e =>
    rw [hsub] at h
    cases h
  | ok r =>
    simp only [hsub] at h
    split at h
    · rename_i x y z hc hcreate
      simp only [Option.some.injEq, Prod.mk.injEq] at h
      obtain ⟨rfl, rfl, rfl, rfl⟩ := h
      exact ⟨rfl, hc, hcreate⟩
    · cases h

theorem snapshot_round_trip_fresh : ∃ sub c snap t,
    PubSubService.createSnapshot "projects/p/snapshots/snap1" "projects/p/subscriptions/subA" ∅ 0
      (Run.final step start (setup {})) = .ok snap t ∧
    ∀ js, NamesKept (Run.final step t js).kv sub snap → ∃ u,
      PubSubService.seekToSnapshot "projects/p/subscriptions/subA" "projects/p/snapshots/snap1"
        (Run.final step t js) = .ok () u ∧
      RoundTrip (TopicStore.currentTail (Run.final step start (setup {})).kv sub.topicId) c sub
        (Run.final step t js) u := by
  have hready : (captureOf (Run.final step start (setup {})) "projects/p/snapshots/snap1"
      "projects/p/subscriptions/subA").any (fun x =>
        topicKept (Run.final step start (setup {})).kv x.1 && x.1.filter == "" &&
          x.2.1.ackedFloor == 0 && x.2.1.ackedAboveFloor == ∅) = true := by
    decide +kernel
  cases hcapture : captureOf (Run.final step start (setup {})) "projects/p/snapshots/snap1"
    "projects/p/subscriptions/subA" with
  | none =>
    rw [hcapture] at hready
    cases hready
  | some x =>
    obtain ⟨sub, c, snap, t⟩ := x
    rw [hcapture, Option.any_some] at hready
    simp only [Bool.and_eq_true, beq_iff_eq] at hready
    obtain ⟨⟨⟨htopic, hfilter⟩, hfloor⟩, habove⟩ := hready
    obtain ⟨hsub, hc, hcreate⟩ := captureOf_eq_some hcapture
    refine ⟨sub, c, snap, t, hcreate, (snapshot_round_trip_iff hsub (exists_of_topicKept htopic) hc
      hcreate).mpr ⟨⟨none, ?_⟩, fun q hq => ?_⟩⟩
    · rw [hfilter]
      rfl
    · have hpos : 0 < q := by omega
      simp only [CursorRecord.isDone, hfloor, habove, Finset.notMem_empty, decide_false,
        Bool.or_false, decide_eq_false_iff_not]
      omega

/-- Whether the names still lead to the subscription, its topic and the snapshot. -/
def namesKeptCheck (kv : Kv) (sub : SubscriptionRecord) (snap : SnapshotRecord) : Bool :=
  topicKept kv sub &&
    match SubscriptionStore.get kv sub.name, SnapshotStore.get kv snap.name with
    | .ok r, .ok x => r.id = sub.id && x.id = snap.id
    | _, _ => false

theorem NamesKept.of_check {kv : Kv} {sub : SubscriptionRecord} {snap : SnapshotRecord}
    (h : namesKeptCheck kv sub snap = true) : NamesKept kv sub snap := by
  obtain ⟨htopic, hnames⟩ := Bool.and_eq_true_iff.mp h
  split at hnames
  · rename_i r x hr hx
    obtain ⟨hid, hsnap⟩ := Bool.and_eq_true_iff.mp hnames
    exact ⟨⟨r, hr, of_decide_eq_true hid⟩, exists_of_topicKept htopic,
      ⟨x, hx, of_decide_eq_true hsnap⟩⟩
  · cases hnames

/-- The second message of another topic is acknowledged on `subA`. -/
def ackedAhead : List Input :=
  setup {} ++ [⟨0, .createTopic "projects/p/topics/top2" ∅ none none false false⟩,
    ⟨0, .createSubscription "projects/p/subscriptions/subC" "projects/p/topics/top2" {}⟩,
    ⟨0, .publish "projects/p/topics/top2" [oneByte, oneByte]⟩,
    ⟨0, .pull "projects/p/subscriptions/subC" 10⟩,
    ⟨0, .acknowledge "projects/p/subscriptions/subA" [encodeAckId 5 2 1]⟩]

/-- The message that is published next is done in the captured cursor. -/
theorem snapshot_loses_later_message : ¬ ∀ (is js : List Input) (nowMs : Int)
    (name subscription : String) (labels : SortedMap String String) (sub : SubscriptionRecord)
    (c : CursorRecord) (snap : SnapshotRecord) (t : Engine),
    SubscriptionStore.get (Run.final step start is).kv subscription = .ok sub →
    (Run.final step start is).kv.cursors.get sub.id = some c →
    PubSubService.createSnapshot name subscription labels nowMs (Run.final step start is) =
      .ok snap t →
    NamesKept (Run.final step t js).kv sub snap → ∃ u,
      PubSubService.seekToSnapshot subscription name (Run.final step t js) = .ok () u ∧
      RoundTrip (TopicStore.currentTail (Run.final step start is).kv sub.topicId) c sub
        (Run.final step t js) u := by
  intro h
  have hfacts : (captureOf (Run.final step start ackedAhead) "projects/p/snapshots/snap1"
      "projects/p/subscriptions/subA").any (fun x =>
        let kv := (Run.final step x.2.2.2 [⟨0, .publish "projects/p/topics/top1" [oneByte]⟩]).kv
        namesKeptCheck kv x.1 x.2.2.1 && (kv.msg.get ⟨x.1.topicId, 2⟩).isSome && x.2.1.isDone 2 &&
          decide (TopicStore.currentTail (Run.final step start ackedAhead).kv x.1.topicId < 2)) =
      true := by
    decide +kernel
  cases hcapture : captureOf (Run.final step start ackedAhead) "projects/p/snapshots/snap1"
    "projects/p/subscriptions/subA" with
  | none =>
    rw [hcapture] at hfacts
    cases hfacts
  | some x =>
    obtain ⟨sub, c, snap, t⟩ := x
    rw [hcapture, Option.any_some] at hfacts
    simp only [Bool.and_eq_true, decide_eq_true_eq] at hfacts
    obtain ⟨⟨⟨hkept, hrow⟩, hdone⟩, htail⟩ := hfacts
    obtain ⟨hsub, hc, hcreate⟩ := captureOf_eq_some hcapture
    obtain ⟨u, _, hround⟩ := h _ _ _ _ _ _ _ _ _ _ hsub hc hcreate (.of_check hkept)
    obtain ⟨m, hm⟩ := Option.isSome_iff_exists.mp hrow
    have hopen := hround.published 2 m htail hm
    rw [hdone] at hopen
    cases hopen

end OpenPubusb
