import OpenPubusb.Apart
import OpenPubusb.FilterCache
import OpenPubusb.LeaseFailures
import OpenPubusb.PolicyFields

/-! The calls on one subscription cannot be seen from the others: whatever its clients
pull, acknowledge or seek, every reply to a publisher or to the clients of another
subscription is the one they would get without these calls. -/

namespace OpenPubusb

open Hoare

def SameRest (kv kv' : Kv) : Prop :=
  ∃ cursors dlv w, kv' = { kv with cursors := cursors, dlv := dlv, writes := w }

instance : CursorFrame SameRest where
  refl kv := ⟨kv.cursors, kv.dlv, kv.writes, rfl⟩
  trans := by
    rintro kv _ _ ⟨c, d, w, rfl⟩ ⟨c', d', w', rfl⟩
    exact ⟨c', d', w', rfl⟩
  dlv kv dlv w := ⟨kv.cursors, dlv, w, rfl⟩
  cursor w _ _ := ⟨_, _, w, rfl⟩

/-- Only delivery state of the subscription `b` changed. -/
structure Private (b : Nat) (s t : Engine) : Prop where
  rest : SameRest s.kv t.kv
  cursors : ∀ i ≠ b, t.kv.cursors.get i = s.kv.cursors.get i
  dlv : ∀ i q, i ≠ b → t.kv.dlv.get ⟨i, q⟩ = s.kv.dlv.get ⟨i, q⟩
  leases : ∀ i q, i ≠ b → t.leases.get i q = s.leases.get i q
  filters : ∀ i ≠ b, t.filters.get i = s.filters.get i
  streams : t.streams = s.streams

section Hidden

variable {b : Nat} {s t : Engine}

theorem Private.refl (b : Nat) (s : Engine) : Private b s s :=
  ⟨RowFrame.refl s.kv, fun _ _ => rfl, fun _ _ _ => rfl, fun _ _ _ => rfl, fun _ _ => rfl, rfl⟩

theorem Private.apart (h : Private b s t) (hc : Consistent s.kv) (hh : s.kv.Healthy) :
    Apart b s t := by
  obtain ⟨cursors, dlv, w, hkv⟩ := h.rest
  refine ⟨⟨hh, ⟨_, _, _, _, hkv⟩, fun {i r} hr => (hc.subs.record hr).2, fun i _ => ?_, h.cursors,
    h.dlv⟩, h.leases, h.filters, h.streams⟩
  rw [hkv]

theorem ensures_touch_hidden (h : Private b s t) (hc : Consistent s.kv) (hh : s.kv.Healthy)
    (nowMs : Int) (E : Error → Engine → Prop) :
    Ensures (PubSubService.touch b nowMs) t (fun _ u => Apart b s u) E := by
  obtain ⟨cursors, dlv, w, hkv⟩ := h.rest
  have hht : t.kv.Healthy := by
    rw [hkv]
    exact hh
  have hsubs : t.kv.subs = s.kv.subs := by rw [hkv]
  simp only [PubSubService.touch, ensures_ignore, ensures_onKv, SubscriptionStore.touch,
    ensures_bind, ensures_estateGet]
  cases hl : SubscriptionStore.load t.kv b s!"sub_id={b}" with
  | error e => exact h.apart hc hh
  | ok r =>
    have hr : s.kv.subs.get b = some r := hsubs ▸ load_eq_ok hl
    have hkey : identity { r with lastActivityTsMs := nowMs } = identity r := rfl
    have hrows := persist_rows hc hr hkey
    have hnames : s.kv.subNames.insert r.name r.id = s.kv.subNames :=
      SortedMap.ext_get hrows.2
    simp only [SubscriptionStore.persist, putSub, putSubName, ensures_bind]
    refine (ensures_kvWrite_healthy hht).mpr ((ensures_kvWrite_healthy ?_).mpr ?_)
    · exact fun n => hht n
    refine ⟨⟨hh, ⟨s.kv.subs.insert r.id { r with lastActivityTsMs := nowMs }, cursors, dlv,
      w + 1 + 1, ?_⟩, fun {i x} hx => (hc.subs.record hx).2,
      fun i hi => ?_, h.cursors, h.dlv⟩, h.leases, h.filters, h.streams⟩
    · simp only [Kv.tick, hkv, hnames]
    · show (t.kv.subs.insert r.id _).get i = _
      rw [hsubs, hrows.1, if_neg hi]

theorem LeaseExact.hidden {a : LeaseArgs} {c : CursorRecord} {out : List Delivered}
    (h : LeaseExact a s c out t)
    (hplain : ∀ n, shouldDeadLetter n (reclaimPolicy s.kv a.subId).deadLetter = false) :
    Private a.subId s t := by
  obtain ⟨u, sc, hscan, _, _, rfl⟩ := h
  have hnone : (planned a s c).filterMap (Judged.copy s.kv a) = [] := by
    refine List.filterMap_eq_nil_iff.mpr fun v hv => ?_
    rw [Judged.copy, (mem_planned hv).2]
    unfold judge redeliver
    simp only [hplain, Bool.false_eq_true, if_false]
    split_ifs <;> rfl
  obtain ⟨dlv, hkv⟩ := hscan.kv
  rw [hnone] at hkv
  have hu : Private a.subId s u := by
    refine ⟨⟨s.kv.cursors, dlv, _, hkv⟩, fun i _ => ?_,
      fun i q hi => (hscan.others i q fun he => absurd he hi).2,
      fun i q hi => (hscan.others i q fun he => absurd he hi).1,
      fun i _ => by rw [hscan.filters], hscan.streams⟩
    rw [hkv]
    rfl
  obtain ⟨cursors, d, w, hrest⟩ := hu.rest
  unfold Engine.withCursor
  split_ifs
  · refine ⟨⟨u.kv.cursors.insert a.subId sc.cursor, d, w + 1, ?_⟩, fun i hi => ?_, hu.dlv,
      hu.leases, hu.filters, hu.streams⟩
    · simp only [Kv.tick, hrest]
    · exact (SortedMap.get_insert_ne _ _ hi).trans (hu.cursors i hi)
  · exact hu

theorem ensures_leaseNext_hidden (hh : s.kv.Healthy)
    (hplain : ∀ n, shouldDeadLetter n (reclaimPolicy s.kv b).deadLetter = false) (topicId : Nat)
    (maxMessages nowMs secs : Int) :
    Ensures (leaseNext b topicId maxMessages nowMs secs) s (fun _ t => Private b s t)
      (fun _ t => Private b s t) := by
  by_cases hmax : 0 < maxMessages
  · cases hc : s.kv.cursors.get b with
    | none =>
      obtain ⟨e, he⟩ := leaseNext_no_cursor topicId nowMs secs hmax hc
      unfold Ensures
      rw [he]
      exact Private.refl b s
    | some c =>
      have hnone : NoneUndeliverable (leaseArgs s b topicId maxMessages nowMs secs) s c := by
        intro v _ hv
        have hdead := hv.2.1
        rw [show (leaseArgs s b topicId maxMessages nowMs secs).subId = b from rfl, hplain] at hdead
        cases hdead
      obtain ⟨out, t, hrun⟩ := (leaseNext_ok_iff hh topicId hmax nowMs secs hc).mpr hnone
      have hexact := (ensures_leaseNext_exact topicId nowMs secs hmax hc).of_ok hrun
      have hpriv := hexact.hidden hplain
      unfold Ensures
      rw [hrun]
      refine ⟨hpriv.rest, hpriv.cursors, hpriv.dlv, hpriv.leases, fun i hi => ?_, hpriv.streams⟩
      rw [hpriv.filters i hi, Engine.cacheFilter]
      cases s.filters.get b with
      | some f => rfl
      | none => exact SortedMap.get_insert_ne _ _ hi
  · have hle : maxMessages ≤ 0 := not_lt.mp hmax
    simp only [leaseNext, if_pos hle, ensures_pure]
    exact Private.refl b s

def IdsWithin (b : Nat) (ackIds : List String) : Prop :=
  ∀ ackId ∈ ackIds, ∀ j q g, decodeAckId ackId = some (j, q, g) → j = b

theorem IdsWithin.not_hit {ackIds : List String} (h : IdsWithin b ackIds) {i q : Nat} (hi : i ≠ b) :
    ¬ Hit s.leases ackIds i q := by
  rintro ⟨ackId, hmem, l, _, hd⟩
  exact hi (h ackId hmem i q _ hd)

theorem ensures_acknowledge_hidden (hwf : s.WellFormed) {ackIds : List String}
    (hids : IdsWithin b ackIds) :
    Ensures (acknowledge b ackIds) s (fun _ t => Private b s t) (fun _ t => Private b s t) := by
  have hcache : Keeps SameCache (acknowledge b ackIds) := memory_acknowledge b ackIds
  have hrest : Keeps (OnStore SameRest) (acknowledge b ackIds) := keeps_acknowledge b ackIds
  refine (((ensures_acknowledge ackIds hwf.healthy hwf.coherent).and (hcache s)).and
    (hrest s)).mono (fun _ t h => ?_) (fun _ t h => ?_)
  · obtain ⟨⟨hack, hf⟩, hr⟩ := h
    exact ⟨hr, hack.cursors, hack.dlv, fun i q hi => (hack.leases i q).2 (hids.not_hit hi),
      fun i _ => congrArg (·.get i) hf, hack.streams⟩
  · rw [h.1.1.1]
    exact Private.refl b s

theorem ensures_modify_hidden (hwf : s.WellFormed) {ackIds : List String}
    (hids : IdsWithin b ackIds) (nowMs seconds : Int) (E : Error → Engine → Prop) :
    Ensures (modifyAckDeadline b ackIds nowMs seconds) s (fun _ t => Private b s t)
      (fun e t => E e t ∧ SameCache s t) := by
  have hcache : Keeps SameCache (modifyAckDeadline b ackIds nowMs seconds) :=
    memory_modifyAckDeadline b ackIds nowMs seconds
  have hown : ∀ ackId ∈ ackIds, ∀ i q, s.leases.Names ackId i q → i = b := by
    rintro ackId hmem i q ⟨l, _, hd⟩
    exact hids ackId hmem i q _ hd
  refine ((ensures_modifyAckDeadline ackIds nowMs seconds hwf.healthy hwf.coherent hown E).and
    (hcache s)).mono (fun _ t h => ?_) (fun _ _ h => h)
  obtain ⟨hres, hf⟩ := h
  obtain ⟨dlv, w, hkv⟩ := hres.rest
  refine ⟨⟨s.kv.cursors, dlv, w, hkv⟩, fun i _ => ?_,
    fun i q hi => (hres.dlv i q).2 fun hk => hi hk.1,
    fun i q hi => (hres.leases i q).2 fun hk => hi hk.1, fun i _ => congrArg (·.get i) hf, hres.streams⟩
  rw [hkv]

theorem ensures_restoreCursor_hidden (hh : s.kv.Healthy) (c : CursorRecord)
    (E : Error → Engine → Prop) :
    Ensures (restoreCursor b c) s (fun _ t => Private b s t) (fun e t => E e t ∧ SameCache s t) := by
  have hcache : Keeps SameCache (restoreCursor b c) := memory_restoreCursor b c
  refine ((ensures_restoreCursor c hh E).and (hcache s)).mono (fun _ t h => ?_) (fun _ _ h => h)
  obtain ⟨hres, hf⟩ := h
  obtain ⟨dlv, w, hkv⟩ := hres.rest
  refine ⟨⟨_, dlv, w, hkv⟩, fun i hi => ?_, fun i q hi => ?_, fun i q hi => ?_,
    fun i _ => congrArg (·.get i) hf, hres.streams⟩
  · rw [hkv]
    exact SortedMap.get_insert_ne _ _ hi
  · rw [hres.dlv, if_neg hi]
  · rw [hres.leases, if_neg hi]

end Hidden

section Runs

variable {b : Nat} {s t : Engine} {names : SortedMap String Nat} {op : Op}

/-- The calls of publishers and of the clients of a subscription. -/
def Op.isData (op : Op) : Bool := op.isPublish || op.reader.isSome

/-- The subscription names are `names`, and `b` has no dead-letter topic. -/
structure Watched (names : SortedMap String Nat) (b : Nat) (s : Engine) : Prop where
  consistent : Consistent s.kv
  wf : s.WellFormed
  names : s.kv.subNames = names
  plain : ∀ r, s.kv.subs.get b = some r → r.deadLetterTopic = none

/-- What all of them leave of the subscription records. -/
def KeepsNames (kv kv' : Kv) : Prop :=
  kv'.subNames = kv.subNames ∧ ∀ i r', kv'.subs.get i = some r' →
    ∃ r, kv.subs.get i = some r ∧ r'.deadLetterTopic = r.deadLetterTopic

theorem Change.keepsNames {kv kv' : Kv} (h : Change op kv kv') (hop : op.isData = true)
    (hc : Consistent kv) : KeepsNames kv kv' := by
  cases h with
  | rewrite w hr hw =>
    have hrows := persist_rows hc hr hw.identity_eq
    refine ⟨SortedMap.ext_get hrows.2, fun i x hx => ?_⟩
    rw [hrows.1] at hx
    split_ifs at hx with hi
    · subst hi
      cases hx
      cases hw with
      | touch => exact ⟨_, hr, rfl⟩
      | _ => cases hop
    · exact ⟨x, hx, rfl⟩
  | deleteSubscription w hr hdel =>
    rcases hdel with rfl | rfl <;> cases hop
  | createTopic => cases hop
  | updateTopic => cases hop
  | deleteTopic => cases hop
  | createSubscription => cases hop
  | createSnapshot => cases hop
  | _ => exact ⟨rfl, fun i x hx => ⟨x, hx, rfl⟩⟩

theorem Path.keepsNames {kv kv' : Kv} (h : Path op kv kv') (hop : op.isData = true)
    (hc : Consistent kv) : KeepsNames kv kv' := by
  induction h with
  | refl => exact ⟨rfl, fun i x hx => ⟨x, hx, rfl⟩⟩
  | tail hp hch ih =>
    have hlast := hch.keepsNames hop (Path.evolves hp hc).consistent
    refine ⟨hlast.1.trans ih.1, fun i x hx => ?_⟩
    obtain ⟨y, hy, hxy⟩ := hlast.2 i x hx
    obtain ⟨z, hz, hyz⟩ := ih.2 i y hy
    exact ⟨z, hz, hxy.trans hyz⟩

theorem Watched.step (h : Watched names b s) {i : Input} (hop : i.op.isData = true) :
    Watched names b (OpenPubusb.step s i).2 := by
  have hpath := step_path i h.consistent h.wf.healthy
  have hkept := hpath.keepsNames hop h.consistent
  refine ⟨(hpath.evolves h.consistent).consistent, wellFormed_step h.wf i,
    hkept.1.trans h.names, fun r hr => ?_⟩
  obtain ⟨r₀, hr₀, he⟩ := hkept.2 b r hr
  exact he.trans (h.plain r₀ hr₀)

theorem Watched.record (h : Watched names b s) {name : String} (hn : names.get name = some b) :
    ∃ r, SubscriptionStore.get s.kv name = .ok r ∧ r.id = b := by
  rw [← h.names] at hn
  obtain ⟨r, hr, hname⟩ := h.consistent.subs.named hn
  refine ⟨r, ?_, (h.consistent.subs.record hr).2⟩
  rw [← hname]
  exact h.consistent.get_name hr

theorem Watched.never_dead (h : Watched names b s) (n : Nat) :
    shouldDeadLetter n (reclaimPolicy s.kv b).deadLetter = false := by
  unfold reclaimPolicy
  cases hr : s.kv.subs.get b with
  | none => simp [shouldDeadLetter]
  | some r => simp [shouldDeadLetter, h.plain r hr]

theorem Watched.hidden (h : Watched names b s) {name : String} (hn : names.get name = some b)
    (hname : op.reader = some name) (hids : IdsWithin b op.ackIds) (nowMs : Int) :
    Apart b s (OpenPubusb.step s ⟨nowMs, op⟩).2 := by
  obtain ⟨r, hget, hrid⟩ := h.record hn
  have hstay : Apart b s s := (Private.refl b s).apart h.consistent h.wf.healthy
  have htouch : ∀ t, Private b s t → Ensures (PubSubService.touch b nowMs) t
      (fun _ u => Apart b s u) (fun _ u => Apart b s u) := fun t ht =>
    ensures_touch_hidden ht h.consistent h.wf.healthy nowMs _
  have hpriv : ∀ t, Private b s t → Apart b s t := fun t ht => ht.apart h.consistent h.wf.healthy
  have key : Ensures (perform nowMs op) s (fun _ t => Apart b s t) (fun _ t => Apart b s t) := by
    cases op with
    | pull name' n =>
      cases hname
      simp only [perform, PubSubService.pullDelivered, PubSubService.attached, ensures_bind,
        ensures_liftResult, ensures_pure, ensures_get, hget, ensures_ite, ensures_throw]
      refine ⟨fun _ _ => ⟨fun x hx => ⟨fun _ => hstay, fun _ => ?_⟩, fun _ _ => hstay⟩,
        fun _ _ => hstay⟩
      cases hx
      rw [hrid]
      exact (ensures_leaseNext_hidden h.wf.healthy h.never_dead ..).mono (fun _ t ht => htouch t ht)
        (fun _ t ht => hpriv t ht)
    | acknowledge name' ids =>
      cases hname
      simp only [perform, PubSubService.acknowledge, ensures_bind, liftResult, ensures_pure,
        ensures_get, hget, hrid]
      exact (ensures_acknowledge_hidden h.wf hids).mono (fun _ t ht => htouch t ht)
        (fun _ t ht => hpriv t ht)
    | modifyAckDeadline name' ids secs =>
      cases hname
      simp only [perform, PubSubService.modifyAckDeadline, ensures_bind, liftResult, ensures_pure,
        ensures_get, hget, hrid]
      exact (ensures_modify_hidden h.wf hids nowMs secs fun _ _ => False).mono
        (fun _ t ht => htouch t ht) (fun _ _ hno => hno.1.elim)
    | seekToSnapshot name' snapshot =>
      cases hname
      simp only [perform, PubSubService.seekToSnapshot, ensures_bind, ensures_liftResult,
        ensures_pure, ensures_get, hget, ensures_ite, ensures_throw]
      refine ⟨fun x hx => ⟨fun y _ => ⟨fun _ => hstay, fun _ => ?_⟩, fun _ _ => hstay⟩,
        fun _ _ => hstay⟩
      cases hx
      rw [hrid]
      exact (ensures_restoreCursor_hidden h.wf.healthy _ fun _ _ => False).mono
        (fun _ t ht => hpriv t ht) (fun _ _ hno => hno.1.elim)
    | seekToTime name' timeMs =>
      cases hname
      simp only [perform, PubSubService.seekToTime, ensures_bind, liftResult, ensures_pure,
        ensures_get, hget, loadCursor, hrid]
      cases s.kv.cursors.get b with
      | none => exact hstay
      | some c =>
        exact (ensures_restoreCursor_hidden h.wf.healthy _ fun _ _ => False).mono
          (fun _ t ht => hpriv t ht) (fun _ _ hno => hno.1.elim)
    | _ => cases hname
  have hs := @ensures_step s ⟨nowMs, op⟩ (fun t => Apart b s t)
  exact hs key

theorem subscriptionId_eq {kv : Kv} (hc : Consistent kv) (name : String) :
    subscriptionId kv name = kv.subNames.get name := by
  unfold subscriptionId SubscriptionStore.get
  cases hn : kv.subNames.get name with
  | none => rfl
  | some i =>
    obtain ⟨r, hr, _⟩ := hc.subs.named hn
    simp only [SubscriptionStore.load, hr, (hc.subs.record hr).2]

/-- Every ack id of the call is one of the subscription that the call names. -/
def KeepsToOwn (kv : Kv) (op : Op) : Prop :=
  ∀ ackId ∈ op.ackIds, ∀ j q g, decodeAckId ackId = some (j, q, g) →
    op.reader.bind (subscriptionId kv) = some j

theorem agrees_step {R : Engine → Engine → Prop} {i : Input}
    (h : Agrees R (perform i.nowMs i.op) (perform i.nowMs i.op) s t) :
    (step s i).1 = (step t i).1 ∧ R (step s i).2 (step t i).2 := by
  unfold Agrees at h
  unfold step
  cases hs : perform i.nowMs i.op s with
  | ok a s₁ =>
    cases ht : perform i.nowMs i.op t with
    | ok a' t₁ =>
      rw [hs, ht] at h
      exact h
    | error e t₁ =>
      rw [hs, ht] at h
      exact h.elim
  | error e s₁ =>
    cases ht : perform i.nowMs i.op t with
    | ok a' t₁ =>
      rw [hs, ht] at h
      exact h.elim
    | error e' t₁ =>
      rw [hs, ht] at h
      exact ⟨congrArg Reply.failed h.1, h.2⟩

/-- From any reachable state on, the calls on a subscription without a dead-letter topic
can be left out of a run: each other call gets the reply it gets with them, as long as
every client only uses ack ids of its own subscription. -/
theorem noninterference (is₀ : List Input) {name : String} {r : SubscriptionRecord}
    (hr : SubscriptionStore.get (Run.final step start is₀).kv name = .ok r)
    (hplain : r.deadLetterTopic = none) {is : List Input}
    (hdata : ∀ i ∈ is, i.op.isData = true ∧ KeepsToOwn (Run.final step start is₀).kv i.op) :
    Run.shown step (fun i => i.op.reader == some name) (Run.final step start is₀) is =
        (Run.trace step (Run.final step start is₀)
          (Run.purge (fun i => i.op.reader == some name) is)).map Run.Transition.reply ∧
      Apart r.id (Run.final step (Run.final step start is₀) is)
        (Run.final step (Run.final step start is₀)
          (Run.purge (fun i => i.op.reader == some name) is)) := by
  have hc := (consistent_final is₀).1
  have hwf := wellFormed_final is₀
  generalize Run.final step start is₀ = s at hr hdata hc hwf ⊢
  obtain ⟨id, hid, hrec⟩ := get_eq_ok hr
  obtain rfl : r.id = id := (hc.subs.record hrec).2
  have hw : Watched s.kv.subNames r.id s := by
    refine ⟨hc, hwf, rfl, fun x hx => ?_⟩
    rw [hrec, Option.some.injEq] at hx
    exact hx ▸ hplain
  have hothers : ∀ name', name' ≠ name → s.kv.subNames.get name' ≠ some r.id := by
    intro name' hne hget
    exact hne ((hc.subs.name_eq hget hrec).symm.trans (hc.subs.name_eq hid hrec))
  refine Run.shown_purge (R := fun s₁ t₁ => Watched s.kv.subNames r.id s₁ ∧
      Watched s.kv.subNames r.id t₁ ∧ Apart r.id s₁ t₁)
    (C := fun i => i.op.isData = true ∧ KeepsToOwn s.kv i.op) ?_ ?_
    ⟨hw, hw, (Private.refl r.id s).apart hc hwf.healthy⟩ hdata |>.imp_right fun h => h.2.2
  · rintro s₁ t₁ i ⟨hs₁, ht₁, hap⟩ ⟨hop, hown⟩ hhid
    have hreader : i.op.reader = some name := eq_of_beq hhid
    have hids : IdsWithin r.id i.op.ackIds := by
      intro ackId hmem j q g hd
      have hj := hown ackId hmem j q g hd
      rw [hreader, Option.bind_some, subscriptionId_eq hc, hid] at hj
      exact (Option.some.inj hj).symm
    have hs₂ := hs₁.step hop
    exact ⟨hs₂, ht₁, (hs₁.hidden hid hreader hids i.nowMs).left hap fun hx =>
      (hs₂.consistent.subs.record hx).2⟩
  · rintro s₁ t₁ i ⟨hs₁, ht₁, hap⟩ ⟨hop, hown⟩ hvis
    have hreader : i.op.reader ≠ some name := fun he => by simp [he] at hvis
    have hne : ∀ name', i.op.reader = some name' → s.kv.subNames.get name' ≠ some r.id := by
      intro name' he
      refine hothers name' fun hn => hreader ?_
      rw [he, hn]
    have hids : Avoids r.id i.op.ackIds := by
      intro ackId hmem j q g hd hj
      have hbind := hown ackId hmem j q g hd
      obtain ⟨name', hn', hsub⟩ := Option.bind_eq_some_iff.mp hbind
      rw [subscriptionId_eq hc, hj] at hsub
      exact hne name' hn' hsub
    have hag := agrees_step (agrees_perform hap i.nowMs (by simpa [Op.isData] using hop)
      (fun name' he => by rw [hs₁.names]; exact hne name' he) hids)
    exact ⟨hag.1, hs₁.step hop, ht₁.step hop, hag.2⟩

/-- Both subscriptions pull the message, the first one acknowledges it and seeks back. -/
def sharedTopic : List Input :=
  [pullA 1, ⟨2, .pull "projects/p/subscriptions/subB" 1⟩,
    ⟨3, .acknowledge "projects/p/subscriptions/subA" [encodeAckId 2 1 1]⟩,
    ⟨4, .seekToTime "projects/p/subscriptions/subA" 0⟩, pullA 5,
    ⟨6, .publish "projects/p/topics/top1" [⟨[4], ∅, ""⟩]⟩,
    ⟨7, .pull "projects/p/subscriptions/subB" 1⟩]

theorem noninterference_shared :
    Run.shown step (fun i => i.op.reader == some "projects/p/subscriptions/subA")
        (Run.final step start (setup {})) sharedTopic =
      (Run.trace step (Run.final step start (setup {}))
        (Run.purge (fun i => i.op.reader == some "projects/p/subscriptions/subA")
          sharedTopic)).map Run.Transition.reply := by
  have hsub : (SubscriptionStore.get (Run.final step start (setup {})).kv
      "projects/p/subscriptions/subA").toOption.any
        (fun r => r.deadLetterTopic.isNone) = true := by decide +kernel
  rw [Option.any_eq_true] at hsub
  obtain ⟨r, hr, hplain⟩ := hsub
  have hget : SubscriptionStore.get (Run.final step start (setup {})).kv
      "projects/p/subscriptions/subA" = .ok r := by
    cases hg : SubscriptionStore.get (Run.final step start (setup {})).kv
      "projects/p/subscriptions/subA" with
    | ok r' => rw [hg] at hr; exact congrArg Except.ok (Option.some.inj hr)
    | error e => rw [hg] at hr; cases hr
  have hid : decodeAckId (encodeAckId 2 1 1) = some (2, 1, 1) := by decide +kernel
  have hsubA : subscriptionId (Run.final step start (setup {})).kv
      "projects/p/subscriptions/subA" = some 2 := by decide +kernel
  have hnone : ∀ op : Op, op.ackIds = [] →
      KeepsToOwn (Run.final step start (setup {})).kv op := by
    intro op hop ackId hmem
    rw [hop] at hmem
    cases hmem
  refine (noninterference (setup {}) hget (Option.isNone_iff_eq_none.mp hplain) ?_).1
  intro i hi
  simp only [sharedTopic, pullA, List.mem_cons, List.not_mem_nil, or_false] at hi
  rcases hi with rfl | rfl | rfl | rfl | rfl | rfl | rfl
  · exact ⟨rfl, hnone _ rfl⟩
  · exact ⟨rfl, hnone _ rfl⟩
  · refine ⟨rfl, fun ackId hmem j q g hd => ?_⟩
    simp only [Op.ackIds, List.mem_singleton] at hmem
    rw [hmem, hid, Option.some.injEq, Prod.mk.injEq] at hd
    rw [Op.reader, Option.bind_some, hsubA, hd.1]
  · exact ⟨rfl, hnone _ rfl⟩
  · exact ⟨rfl, hnone _ rfl⟩
  · exact ⟨rfl, hnone _ rfl⟩
  · exact ⟨rfl, hnone _ rfl⟩

end Runs

end OpenPubusb
