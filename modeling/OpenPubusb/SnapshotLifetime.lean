import Mathlib.Order.Bounds.Basic
import OpenPubusb.NameParsing
import OpenPubusb.SeekTime

/-! The lifetime of a new snapshot. Publish times never fall along the log, so the first
message that the cursor has open is the oldest one. -/

namespace OpenPubusb

open Hoare

section Lifetime

variable {kv : Kv} {s : Engine} {nowMs : Int} {topicId : Nat} {c : CursorRecord}
  {oldest : Option Int}

/-- The publish times of the messages that the cursor has open. -/
def openTimes (kv : Kv) (topicId : Nat) (c : CursorRecord) : Set Int :=
  {x | ∃ q m, kv.msg.get ⟨topicId, q⟩ = some m ∧ c.isDone q = false ∧ m.publishTsMs = x}

/-- The least time of the set, if it has any. -/
def Earliest (times : Set Int) : Option Int → Prop
  | none => times = ∅
  | some x => IsLeast times x

def weekMs : Int := 7 * 24 * 3600 * 1000

def hourMs : Int := 3600 * 1000

/-- The time is more than a week less an hour before now. -/
def TooOld (nowMs : Int) (oldest : Option Int) : Prop :=
  ∃ x, oldest = some x ∧ x < nowMs - (weekMs - hourMs)

def expiry (nowMs : Int) : Option Int → Int
  | none => nowMs + weekMs
  | some x => min nowMs x + weekMs

theorem earliest_openTimes (h : Dated nowMs kv) :
    Earliest (openTimes kv topicId c)
      (((scanPrefix kv.msg topicId).find? (fun row => ¬ c.isDone row.1)).map
        (fun row => row.2.publishTsMs)) := by
  cases hfind : (scanPrefix kv.msg topicId).find? (fun row => ¬ c.isDone row.1) with
  | none =>
    rw [List.find?_eq_none] at hfind
    refine Set.eq_empty_iff_forall_notMem.mpr ?_
    rintro x ⟨q, m, hm, hopen, _⟩
    have hdone := hfind (q, m) (mem_scanPrefix.mpr hm)
    simp [hopen] at hdone
  | some row =>
    obtain ⟨hopen, done, rest, hrows, hdone⟩ := List.find?_eq_some_iff_append.mp hfind
    have hopen : c.isDone row.1 = false := by simpa using hopen
    have hrow : kv.msg.get ⟨topicId, row.1⟩ = some row.2 := by
      rw [← mem_scanPrefix, hrows]
      exact List.mem_append_right _ List.mem_cons_self
    refine ⟨⟨row.1, row.2, hrow, hopen, rfl⟩, ?_⟩
    rintro x ⟨q, m, hm, hq, rfl⟩
    have hmem := mem_scanPrefix.mpr hm
    have hsorted := scanPrefix_sorted kv.msg topicId
    rw [hrows] at hmem hsorted
    rcases List.mem_append.mp hmem with hbefore | hfrom
    · have hnot := hdone _ hbefore
      simp [hq] at hnot
    · rcases List.mem_cons.mp hfrom with rfl | hafter
      · exact le_rfl
      · have hlt := (List.pairwise_cons.mp (List.pairwise_append.mp hsorted).2.1).1 _ hafter
        exact h.sorted hlt.le hrow hm

theorem computeExpireAtMs_cases (hlo : i64Min ≤ nowMs) (hhi : nowMs ≤ i64Max - weekMs)
    (hold : ∀ x, oldest = some x → 0 ≤ x ∧ x ≤ nowMs) :
    (TooOld nowMs oldest ∧ computeExpireAtMs nowMs oldest =
      .error (.failedPrecondition "snapshot's remaining lifetime would be under 1 hour")) ∨
    (¬ TooOld nowMs oldest ∧ computeExpireAtMs nowMs oldest = .ok (expiry nowMs oldest)) := by
  have hweek : satMulI64 maxSnapshotLifetimeSecs 1000 = weekMs := by decide
  have hhour : satMulI64 minSnapshotRemainingLifetimeSecs 1000 = hourMs := by decide
  have hsum : satAddI64 nowMs weekMs = nowMs + weekMs := by
    refine satI64_of_range ?_ (by omega)
    unfold weekMs
    omega
  unfold computeExpireAtMs
  rw [hweek, hhour]
  cases oldest with
  | none =>
    have hnot : ¬ TooOld nowMs none := by
      rintro ⟨x, hx, _⟩
      cases hx
    have hsub : satSubI64 (nowMs + weekMs) 0 = nowMs + weekMs := by
      rw [satSubI64, sub_zero]
      exact hsum
    have hleft : satSubI64 (nowMs + weekMs) nowMs = weekMs := by
      rw [satSubI64, add_sub_cancel_left]
      decide
    refine Or.inr ⟨hnot, ?_⟩
    simp only [hsum, hsub, hleft]
    rfl
  | some x =>
    obtain ⟨hx, hle⟩ := hold x rfl
    have hage : max (satSubI64 nowMs x) 0 = nowMs - x := by
      have hsub : satSubI64 nowMs x = nowMs - x :=
        satI64_of_range (by unfold i64Min; omega) (by unfold weekMs at hhi; omega)
      rw [hsub]
      omega
    have hexpire : satSubI64 (nowMs + weekMs) (nowMs - x) = x + weekMs := by
      rw [satSubI64, show nowMs + weekMs - (nowMs - x) = x + weekMs by omega]
      refine satI64_of_range ?_ (by omega)
      unfold weekMs i64Min
      omega
    have hleft : satSubI64 (x + weekMs) nowMs = x + weekMs - nowMs :=
      satI64_of_range (by unfold weekMs i64Min i64Max at *; omega)
        (by unfold weekMs i64Max at *; omega)
    have hold : TooOld nowMs (some x) ↔ x + weekMs - nowMs < hourMs := by
      constructor
      · rintro ⟨y, hy, hlt⟩
        cases hy
        omega
      · intro hlt
        exact ⟨x, rfl, by omega⟩
    simp only [hsum, hage, hexpire, hleft]
    by_cases hlt : x + weekMs - nowMs < hourMs
    · rw [if_pos hlt]
      exact Or.inl ⟨hold.mpr hlt, rfl⟩
    · rw [if_neg hlt, expiry, min_eq_right hle]
      exact Or.inr ⟨mt hold.mp hlt, rfl⟩

/-- The row that a new snapshot is stored as. -/
structure Captured (kv : Kv) (fullName : String) (sub : SubscriptionRecord) (c : CursorRecord)
    (expireAtMs : Int) (r : SnapshotRecord) (t : Engine) : Prop where
  name : r.name = fullName
  topic : r.topic = sub.topic ∧ r.topicId = sub.topicId
  cursor : r.cursor = c
  expires : r.expireAtMs = expireAtMs
  row : t.kv.snaps.get r.id = some r
  named : t.kv.snapNames.get fullName = some r.id
  fresh : kv.snapNames.get fullName = none

theorem ensures_create_captured {name : String} {sub : SubscriptionRecord}
    {labels : SortedMap String String} {expireAtMs : Int} (hh : s.kv.Healthy) :
    Ensures (onKv (SnapshotStore.create name sub.topic sub.topicId labels c expireAtMs)) s
      (fun r t => Captured s.kv name sub c expireAtMs r t)
      (fun e _ => ResourceName.parse "snapshots" name = .error e ∨
        e = .alreadyExists name ∧ (s.kv.snapNames.get name).isSome) := by
  simp only [ensures_onKv, SnapshotStore.create, ensures_bind, ensures_liftResult,
    ensures_estateGet, ensures_ite, ensures_throw, nextId, ensures_get, putIdSeq,
    ensures_kvWrite_healthy hh, ensures_pure]
  refine ⟨fun _ _ => ⟨fun htaken => Or.inr ⟨trivial, htaken⟩, fun hname => ?_⟩,
    fun e he => Or.inl he⟩
  refine (ensures_kvWrite_healthy ?_).mpr ((ensures_kvWrite_healthy ?_).mpr ?_)
  · exact fun n => hh n
  · exact fun n => hh n
  · exact ⟨rfl, ⟨rfl, rfl⟩, rfl, rfl, SortedMap.get_insert_self .., SortedMap.get_insert_self ..,
      Option.not_isSome_iff_eq_none.mp hname⟩

end Lifetime

/-- In every state reached under a clock that never goes back, the first open message is
the earliest one, and a snapshot of the subscription is refused for its age exactly when
that message is older than a week less an hour; otherwise it keeps the cursor, for a week
from the earlier of that message and now. -/
theorem snapshot_lifetime_exact {is : List Input} {nowMs : Int} {name subscription : String}
    {labels : SortedMap String String} {sub : SubscriptionRecord}
    (hclock : Clocked (is ++ [⟨nowMs, .createSnapshot name subscription labels⟩]))
    (hnow : nowMs ≤ i64Max - weekMs)
    (hpublished : ∀ k m, (Run.final step start is).kv.msg.get k = some m → 0 ≤ m.publishTsMs)
    (hsub : SubscriptionStore.get (Run.final step start is).kv subscription = .ok sub) :
    ∃ c oldest, (Run.final step start is).kv.cursors.get sub.id = some c ∧
      oldestUnackedPublishTsMs sub.id sub.topicId (Run.final step start is) =
        .ok oldest (Run.final step start is) ∧
      Earliest (openTimes (Run.final step start is).kv sub.topicId c) oldest ∧
      ((∃ message t, PubSubService.createSnapshot name subscription labels nowMs
          (Run.final step start is) = .error (.failedPrecondition message) t) ↔
        TooOld nowMs oldest) ∧
      (∀ r t, PubSubService.createSnapshot name subscription labels nowMs
          (Run.final step start is) = .ok r t →
        Captured (Run.final step start is).kv name sub c (expiry nowMs oldest) r t) ∧
      (checkName "snapshots" name = .ok () →
        (Run.final step start is).kv.snapNames.get name = none → ¬ TooOld nowMs oldest →
        ∃ r t, PubSubService.createSnapshot name subscription labels nowMs
          (Run.final step start is) = .ok r t) := by
  have hwf := wellFormed_final is
  have hcons := (consistent_final is).1
  have hmono := hclock.monotone
  rw [List.map_append, List.pairwise_append] at hmono
  have hdated : Dated nowMs (Run.final step start is).kv := by
    refine dated_final ⟨hmono.1, fun j hj => hclock.times j (List.mem_append_left _ hj)⟩ ?_
    exact fun j hj => hmono.2.2 _ (List.mem_map_of_mem hj) _ List.mem_cons_self
  have hlo : i64Min ≤ nowMs := hclock.times _ (List.mem_append_right _ List.mem_cons_self)
  generalize Run.final step start is = s at *
  have hcur : (s.kv.cursors.get sub.id).isSome := by
    rw [hcons.cursors, hwf.get_ok hsub]
    rfl
  obtain ⟨c, hc⟩ := Option.isSome_iff_exists.mp hcur
  have hleast := @earliest_openTimes s.kv nowMs sub.topicId c hdated
  have hload : loadCursor sub.id s = .ok c s := by
    simp only [loadCursor, bind, EStateM.bind, get, getThe, MonadStateOf.get, estateGet_apply,
      hc, pure, EStateM.pure]
  have hold : oldestUnackedPublishTsMs sub.id sub.topicId s =
      .ok (((scanPrefix s.kv.msg sub.topicId).find? (fun row => ¬ c.isDone row.1)).map
        (fun row => row.2.publishTsMs)) s := by
    change EStateM.bind (loadCursor sub.id) _ s = _
    rw [EStateM.bind, hload]
    rfl
  generalize ((scanPrefix s.kv.msg sub.topicId).find? (fun row => ¬ c.isDone row.1)).map
    (fun row => row.2.publishTsMs) = oldest at hleast hold
  have htimes : ∀ x, oldest = some x → 0 ≤ x ∧ x ≤ nowMs := by
    rintro x rfl
    obtain ⟨⟨q, m, hm, _, rfl⟩, _⟩ := hleast
    exact ⟨hpublished _ _ hm, (hdated.times hm).2⟩
  have hcases := computeExpireAtMs_cases hlo hnow htimes
  have hcreate : Ensures (PubSubService.createSnapshot name subscription labels nowMs) s
      (fun r t => ¬ TooOld nowMs oldest ∧ Captured s.kv name sub c (expiry nowMs oldest) r t)
      (fun e _ => (TooOld nowMs oldest ∧ ∃ message, e = .failedPrecondition message) ∨
        ¬ TooOld nowMs oldest ∧ (ResourceName.parse "snapshots" name = .error e ∨
          e = .alreadyExists name ∧ (s.kv.snapNames.get name).isSome)) := by
    have hcall : PubSubService.createSnapshot name subscription labels nowMs s =
        (liftResult (computeExpireAtMs nowMs oldest) >>= fun expireAtMs => onKv
          (SnapshotStore.create name sub.topic sub.topicId labels c expireAtMs)) s := by
      change (liftResult (SubscriptionStore.get s.kv subscription) >>= _ : EngineM SnapshotRecord) s = _
      rw [hsub]
      change EStateM.bind (loadCursor sub.id) _ s = _
      rw [EStateM.bind, hload]
      change EStateM.bind (oldestUnackedPublishTsMs sub.id sub.topicId) _ s = _
      rw [EStateM.bind, hold]
    unfold Ensures
    rw [hcall]
    change Ensures (liftResult (computeExpireAtMs nowMs oldest) >>= _) s _ _
    rcases hcases with ⟨hold, heq⟩ | ⟨hyoung, heq⟩
    · rw [heq]
      exact Or.inl ⟨hold, _, rfl⟩
    · rw [heq]
      exact (ensures_create_captured hwf.healthy).mono (fun _ _ h => ⟨hyoung, h⟩)
        fun _ _ h => Or.inr ⟨hyoung, h⟩
  refine ⟨c, oldest, hc, hold, hleast, ?_, fun r t hok => (hcreate.of_ok hok).2,
    fun hname hfree hyoung => ?_⟩
  · constructor
    · rintro ⟨message, t, herr⟩
      rcases hcreate.of_error herr with ⟨hold, _⟩ | ⟨_, he | ⟨he, _⟩⟩
      · exact hold
      · obtain ⟨_, he⟩ := checkName_eq_error (ResourceName.parse_eq_error.mp he)
        cases he
      · cases he
    · intro hold
      cases hres : PubSubService.createSnapshot name subscription labels nowMs s with
      | ok r t => exact absurd hold (hcreate.of_ok hres).1
      | error e t =>
        rcases hcreate.of_error hres with ⟨_, message, rfl⟩ | ⟨hyoung, _⟩
        · exact ⟨message, t, rfl⟩
        · exact absurd hold hyoung
  · cases hres : PubSubService.createSnapshot name subscription labels nowMs s with
    | ok r t => exact ⟨r, t, rfl⟩
    | error e t =>
      rcases hcreate.of_error hres with ⟨hold, _⟩ | ⟨_, he | ⟨_, htaken⟩⟩
      · exact absurd hold hyoung
      · rw [ResourceName.parse_eq_error, hname] at he
        cases he
      · rw [hfree] at htaken
        cases htaken

/-- The one message is open, and it was published at `0`. -/
theorem snapshot_lifetime_exact_first : ∃ r t,
    PubSubService.createSnapshot "projects/p/snapshots/snap1" "projects/p/subscriptions/subA" ∅ 1000
      (Run.final step start (setup {})) = .ok r t ∧
    r.expireAtMs = expiry 1000 (some 0) ∧ ¬ TooOld 1000 (some 0) := by
  have hclock : Clocked (setup {} ++ [⟨1000, .createSnapshot "projects/p/snapshots/snap1"
      "projects/p/subscriptions/subA" ∅⟩]) := ⟨by decide, by decide⟩
  have hrows : ((Run.final step start (setup {})).kv.msg.entries.all
      fun e => decide (e.2.publishTsMs = 0)) = true := by
    decide +kernel
  have hpublished : ∀ k m, (Run.final step start (setup {})).kv.msg.get k = some m →
      m.publishTsMs = 0 := by
    intro k m hm
    exact of_decide_eq_true (List.all_eq_true.mp hrows _ (SortedMap.mem_entries.mpr hm))
  have hready : (SubscriptionStore.get (Run.final step start (setup {})).kv
      "projects/p/subscriptions/subA").toOption.any (fun sub =>
        ((Run.final step start (setup {})).kv.snapNames.get "projects/p/snapshots/snap1").isNone &&
        (((Run.final step start (setup {})).kv.msg.get ⟨sub.topicId, 1⟩).isSome &&
        ((Run.final step start (setup {})).kv.cursors.get sub.id).map (CursorRecord.isDone · 1) =
          some false)) = true := by
    decide +kernel
  cases hsub : SubscriptionStore.get (Run.final step start (setup {})).kv
    "projects/p/subscriptions/subA" with
  | error e =>
    rw [hsub] at hready
    cases hready
  | ok sub =>
    rw [hsub] at hready
    simp only [Except.toOption, Option.any_some, Bool.and_eq_true, decide_eq_true_eq,
      Option.map_eq_some_iff] at hready
    obtain ⟨hfree, hrow, c₀, hc₀, hundone⟩ := hready
    obtain ⟨m, hm⟩ := Option.isSome_iff_exists.mp hrow
    obtain ⟨c, oldest, hc, _, hleast, _, hok, hexists⟩ := snapshot_lifetime_exact hclock (by decide)
      (fun k m hm => (hpublished k m hm).ge) hsub
    rw [hc₀, Option.some.injEq] at hc
    subst hc
    have hmem : 0 ∈ openTimes (Run.final step start (setup {})).kv sub.topicId c₀ :=
      ⟨1, m, hm, hundone, hpublished _ _ hm⟩
    have holdest : oldest = some 0 := by
      cases oldest with
      | none =>
        have hempty : openTimes (Run.final step start (setup {})).kv sub.topicId c₀ = ∅ := hleast
        rw [hempty] at hmem
        exact absurd hmem (Set.notMem_empty 0)
      | some x =>
        obtain ⟨⟨q, m', hm', _, rfl⟩, _⟩ := hleast
        rw [hpublished _ _ hm']
    have hyoung : ¬ TooOld 1000 (some 0) := by
      rintro ⟨x, hx, hlt⟩
      rw [Option.some.injEq] at hx
      unfold weekMs hourMs at hlt
      omega
    rw [holdest] at hok hexists
    obtain ⟨r, t, hr⟩ := hexists (by decide) (Option.isNone_iff_eq_none.mp hfree) hyoung
    exact ⟨r, t, hr, (hok r t hr).expires, hyoung⟩

end OpenPubusb
