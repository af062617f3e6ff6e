import OpenPubusb.CatalogOps
import OpenPubusb.Deliveries
import OpenPubusb.Memory

/-! The filter of a subscription as it is stored, as it is compiled on the first
lease call, and as it is cached from then on. -/

namespace OpenPubusb

open Hoare

def SameCache (s t : Engine) : Prop := t.filters = s.filters

instance : MemoryFrame SameCache where
  refl _ := rfl
  trans h h' := Eq.trans h' h
  rows _ _ := rfl
  leases _ _ := rfl
  streams _ _ := rfl
  log _ _ := rfl

section Cache

/-- An entry of the cache was there before, or it is the stored filter of a
subscription. -/
def Cached (s t : Engine) : Prop :=
  ∀ id f, t.filters.get id = some f → s.filters.get id = some f ∨
    f = storedFilter s.kv id ∧ (s.kv.cursors.get id).isSome

theorem cached_of_same {s t : Engine} (h : SameCache s t) : Cached s t := by
  intro id f hf
  rw [h] at hf
  exact Or.inl hf

theorem Cached.then {s t u : Engine} (h : Cached s t) (h' : SameCache t u) : Cached s u := by
  intro id f hf
  rw [h'] at hf
  exact h id f hf

theorem cached_leaseNext (subId topicId : Nat) (maxMessages nowMs secs : Int) :
    Keeps Cached (leaseNext subId topicId maxMessages nowMs secs) := by
  intro s
  simp only [leaseNext, loadCursor, ensures_ite, ensures_pure, ensures_bind, ensures_get]
  refine ⟨fun _ => cached_of_same rfl, fun _ => ?_⟩
  cases hc : s.kv.cursors.get subId with
  | none => exact cached_of_same rfl
  | some c =>
    simp only [ensures_pure, compiledFilter, ensures_bind, ensures_get]
    cases hf : s.filters.get subId with
    | some f =>
      exact (memory_leaseNextLocked _ c s).mono (fun _ _ h => cached_of_same h)
        (fun _ _ h => cached_of_same h)
    | none =>
      simp only [ensures_bind, ensures_modify, ensures_pure]
      have hnew : Cached s { s with
          filters := s.filters.insert subId (storedFilter s.kv subId) } := by
        intro id f h
        simp only [SortedMap.get_insert] at h
        split_ifs at h with hid
        · right
          rw [hid, hc]
          exact ⟨(Option.some.inj h).symm, rfl⟩
        · exact Or.inl h
      exact (memory_leaseNextLocked _ c _).mono (fun _ _ h => hnew.then h) (fun _ _ h => hnew.then h)

theorem cached_perform (nowMs : Int) (op : Op) : Keeps Cached (perform nowMs op) := by
  by_cases hpull : ∃ name n, op = .pull name n
  · obtain ⟨name, n, rfl⟩ := hpull
    intro s
    simp only [perform, PubSubService.pullDelivered, PubSubService.attached, ensures_bind,
      ensures_pure, ensures_get, ensures_liftResult, ensures_ite, ensures_throw]
    refine ⟨fun _ _ => ⟨fun sub _ => ⟨fun _ => cached_of_same rfl, fun _ => ?_⟩,
      fun _ _ => cached_of_same rfl⟩, fun _ _ => cached_of_same rfl⟩
    refine (cached_leaseNext _ _ _ _ _ s).mono (fun ds t h => ?_) (fun _ _ h => h)
    have htouch : Keeps SameCache (PubSubService.touch sub.id nowMs) := Keeps.ignore (memory_onKv _)
    exact (htouch t).mono (fun _ _ h' => h.then h') (fun _ _ h' => h.then h')
  by_cases hstream : ∃ sid, op = .leaseForStream sid
  · obtain ⟨sid, rfl⟩ := hstream
    intro s
    simp only [perform, leaseForStream, ensures_bind, ensures_get, ensures_pure]
    cases s.streams.info sid with
    | none => exact cached_of_same rfl
    | some info =>
      simp only [ensures_ite, ensures_pure, ensures_bind, ensures_modify]
      refine ⟨fun _ => cached_of_same rfl, fun _ => ?_⟩
      exact (cached_leaseNext _ _ _ _ _ s).mono (fun ds t h => h) (fun _ _ h => h)
  by_cases hrestart : op = .restart
  · subst hrestart
    intro s id f hf
    cases hf
  · exact (memory_perform nowMs (fun name n h => hpull ⟨name, n, h⟩) (fun sid h => hstream ⟨sid, h⟩)
      hrestart).mono fun _ _ h => cached_of_same h

theorem step_cached (s : Engine) (i : Input) : Cached s (step s i).2 :=
  keeps_step (cached_perform i.nowMs i.op)

end Cache

section Stored

variable {op : Op} {kv kv' : Kv}

/-- A subscription that the call creates has a filter that compiles. -/
def FilterCompiles (kv : Kv) (op : Op) : Prop :=
  ∀ name topic opts t n, op = .createSubscription name topic opts →
    TopicStore.get kv topic = .ok t → SubscriptionStore.checkOptions name topic opts = .ok n →
    kv.subNames.get name = none → ∃ f, compileFilter opts.filter = .ok f

/-- The filters of `kv'` are those of `kv`, or they belong to new subscriptions
and compile. -/
def SameFilters (kv kv' : Kv) : Prop :=
  ∀ id r', kv'.subs.get id = some r' →
    (∃ r, kv.subs.get id = some r ∧ r'.filter = r.filter) ∨
      kv.counter < id ∧ ∃ f, compileFilter r'.filter = .ok f

theorem sameFilters_of_eq (h : kv'.subs = kv.subs) : SameFilters kv kv' := by
  intro id r hr
  rw [h] at hr
  exact Or.inl ⟨r, hr, rfl⟩

theorem SameFilters.trans {kv'' : Kv} (h : SameFilters kv kv') (h' : SameFilters kv' kv'')
    (hcount : kv.counter ≤ kv'.counter) : SameFilters kv kv'' := by
  intro id r'' hr''
  rcases h' id r'' hr'' with ⟨r', hr', he'⟩ | ⟨hid, hf⟩
  · rw [he']
    rcases h id r' hr' with ⟨r, hr, he⟩ | hnew
    · exact Or.inl ⟨r, hr, he⟩
    · exact Or.inr hnew
  · exact Or.inr ⟨hcount.trans_lt hid, hf⟩

theorem Change.sameFilters (h : Change op kv kv') (hc : Consistent kv)
    (hcomp : FilterCompiles kv op) : SameFilters kv kv' := by
  cases h with
  | rewrite w hr hw =>
    intro i x hx
    have hkey := hw.identity_eq
    rw [(persist_rows hc hr hkey).1] at hx
    split_ifs at hx with hi
    · cases hx
      exact Or.inl ⟨_, hi ▸ hr, congrArg (fun k => k.2.2.2) hkey⟩
    · exact Or.inl ⟨x, hx, rfl⟩
  | deleteTopic w _ _ hsubs _ =>
    intro i x hx
    rw [hsubs] at hx
    obtain ⟨y, hy, hyx⟩ := Option.map_eq_some_iff.mp hx
    refine Or.inl ⟨y, hy, ?_⟩
    split_ifs at hyx <;>
    · subst hyx
      rfl
  | createSubscription w hname ht hopts =>
    intro i x hx
    rw [SortedMap.get_insert] at hx
    split_ifs at hx with hi
    · cases hx
      exact Or.inr ⟨by omega, hcomp _ _ _ _ _ rfl ht hopts hname⟩
    · exact Or.inl ⟨x, hx, rfl⟩
  | deleteSubscription =>
    intro i x hx
    rw [SortedMap.get_erase] at hx
    split_ifs at hx
    exact Or.inl ⟨x, hx, rfl⟩
  | _ => exact sameFilters_of_eq rfl

theorem Path.sameFilters (h : Path op kv kv') (hc : Consistent kv) (hs : op.isSingle = false) :
    SameFilters kv kv' := by
  induction h with
  | refl => exact sameFilters_of_eq rfl
  | tail hp hch ih =>
    have hev := Path.evolves hp hc
    refine ih.trans (hch.sameFilters hev.consistent fun _ _ _ _ _ hop => ?_) hev.counter
    rw [hop] at hs
    cases hs

theorem step_sameFilters {s : Engine} (hc : Consistent s.kv) (hh : s.kv.Healthy) (i : Input)
    (hcomp : FilterCompiles s.kv i.op) : SameFilters s.kv (step s i).2.kv := by
  cases hsingle : i.op.isSingle with
  | true =>
    have hone := step_once hc hh hsingle
    revert hone
    generalize (step s i).2.kv = kv'
    intro hone
    cases hone with
    | refl => exact sameFilters_of_eq rfl
    | single hch => exact hch.sameFilters hc hcomp
  | false => exact (step_path i hc hh).sameFilters hc hsingle

end Stored

section Runs

/-- Every stored filter compiles, and the cache has what it compiles to. -/
structure Compiled (s : Engine) : Prop where
  consistent : Consistent s.kv
  healthy : s.kv.Healthy
  stored : ∀ {id r}, s.kv.subs.get id = some r → ∃ f, compileFilter r.filter = .ok f
  cached : ∀ {id f}, s.filters.get id = some f → id ≤ s.kv.counter ∧
    ∀ r, s.kv.subs.get id = some r → compileFilter r.filter = .ok f

theorem storedFilter_eq {kv : Kv} {id : Nat} {r : SubscriptionRecord} {f : Option Expr}
    (hr : kv.subs.get id = some r) (hf : compileFilter r.filter = .ok f) :
    storedFilter kv id = f := by
  rw [storedFilter, hr, Option.map_some, Option.getD_some, hf]

theorem Compiled.filterOf {s : Engine} (h : Compiled s) {id : Nat} {r : SubscriptionRecord}
    (hr : s.kv.subs.get id = some r) : compileFilter r.filter = .ok (s.filterOf id) := by
  unfold Engine.filterOf
  cases hc : s.filters.get id with
  | some f => exact (h.cached hc).2 r hr
  | none =>
    obtain ⟨f, hf⟩ := h.stored hr
    rw [Option.getD_none, storedFilter_eq hr hf]
    exact hf

theorem compiled_start : Compiled start where
  consistent := consistent_empty
  healthy _ := rfl
  stored h := by cases h
  cached h := by cases h

theorem Compiled.step {s : Engine} (h : Compiled s) (i : Input) (hcomp : FilterCompiles s.kv i.op) :
    Compiled (OpenPubusb.step s i).2 := by
  have hev := (step_path i h.consistent h.healthy).evolves h.consistent
  have hsame := step_sameFilters h.consistent h.healthy i hcomp
  refine ⟨hev.consistent, hev.healthy h.healthy, fun {id r'} hr' => ?_, fun {id f} hf => ?_⟩
  · rcases hsame id r' hr' with ⟨r, hr, he⟩ | ⟨_, hf⟩
    · rw [he]
      exact h.stored hr
    · exact hf
  · have hknown : id ≤ s.kv.counter ∧ ∀ r, s.kv.subs.get id = some r →
        compileFilter r.filter = .ok f := by
      rcases step_cached s i id f hf with hold | ⟨rfl, hcur⟩
      · exact h.cached hold
      · rw [h.consistent.cursors] at hcur
        refine ⟨h.consistent.sub_known hcur, fun r hr => ?_⟩
        obtain ⟨f, hf⟩ := h.stored hr
        rw [storedFilter_eq hr hf]
        exact hf
    refine ⟨hknown.1.trans hev.counter, fun r' hr' => ?_⟩
    rcases hsame id r' hr' with ⟨r, hr, he⟩ | ⟨hid, _⟩
    · rw [he]
      exact hknown.2 r hr
    · omega

/-- Filters are enforced along the run: they compile, what is handed out passes
them, and a lease call that finishes a message which passes has sent it to the
dead-letter topic. -/
structure FiltersEnforced (is : List Input) : Prop where
  compile : ∀ id r, (Run.final step start is).kv.subs.get id = some r →
    ∃ f, compileFilter r.filter = .ok f
  delivered : ∀ tr ∈ history is, ∀ subId q d, Delivers tr subId q d →
    ∃ r f, tr.pre.kv.subs.get subId = some r ∧ compileFilter r.filter = .ok f ∧
      accepts f d.message.attributes = true
  finished : ∀ tr ∈ history is, ∀ subId secs q c c' r m f,
    leaseCall tr.pre tr.input.op = some (subId, secs) →
    tr.pre.kv.cursors.get subId = some c → tr.post.kv.cursors.get subId = some c' →
    c.isDone q = false → c'.isDone q = true →
    tr.pre.kv.subs.get subId = some r → tr.pre.kv.msg.get ⟨r.topicId, q⟩ = some m →
    compileFilter r.filter = .ok f → accepts f m.attributes = true →
    ∃ en, logOf tr.post.deadLettered subId q = logOf tr.pre.deadLettered subId q ++ [en]

theorem filters_enforced (is : List Input)
    (h : ∀ tr ∈ history is, FilterCompiles tr.pre.kv tr.input.op) : FiltersEnforced is := by
  have hstep : ∀ (s : Engine) (i : Input), Compiled s → FilterCompiles s.kv i.op →
      Compiled (step s i).2 := fun _ i hp hc => hp.step i hc
  have hpre : ∀ tr ∈ history is, Compiled tr.pre :=
    Run.inv_pre (C := fun tr : Transition => FilterCompiles tr.pre.kv tr.input.op) hstep
      compiled_start h
  refine ⟨fun id r hr => ?_, fun tr htr subId q d hd => ?_, ?_⟩
  · exact (Run.inv_final (C := fun tr : Transition => FilterCompiles tr.pre.kv tr.input.op) hstep
      compiled_start h).stored hr
  · obtain ⟨ds, hreply, hmem, rfl⟩ := hd
    rw [(transition_eq_of_mem htr).1] at hreply
    obtain ⟨a, u, hl⟩ := step_leased (wellFormed_pre htr) hreply
    obtain ⟨hp, _, hacc⟩ := hl.done.delivered hmem
    rw [hl.sub] at hp
    obtain ⟨_, r, _, hr, _⟩ := Kv.pending_iff.mp hp
    rw [hl.filter] at hacc
    exact ⟨r, _, hr, (hpre tr htr).filterOf hr, hacc⟩
  · intro tr htr subId secs q c c' r m f hcall hc hc' hopen hdone hr hm hf hacc
    rw [(transition_eq_of_mem htr).2] at hc' ⊢
    rcases step_leaseCall (wellFormed_pre htr) hcall with ⟨ds, a, u, hl⟩ | hsame
    · have hpend : tr.pre.kv.pending subId q = true := by
        refine Kv.pending_iff.mpr ⟨c, r, hc, hr, hopen, Or.inr ?_⟩
        rw [hm]
        rfl
      have hgone : u.kv.pending subId q = false := by
        rw [← hl.kv.pending_eq]
        refine Bool.eq_false_iff.mpr fun hp => ?_
        obtain ⟨c₁, _, hc₁, _, hnot, _⟩ := Kv.pending_iff.mp hp
        rw [hc'] at hc₁
        cases hc₁
        rw [hdone] at hnot
        cases hnot
      obtain ⟨e, _, hslot, hout⟩ := hl.done.slots q
      rw [hl.sub] at hslot
      have hslot : u.kv.pending subId q = (e.apply (tr.pre.slot subId q)).pending :=
        congrArg Slot.pending hslot
      rw [hgone] at hslot
      cases e with
      | forwarded saved =>
        obtain ⟨_, _, m', en, _, hlog, _⟩ := hout
        rw [hl.sub] at hlog
        rw [hl.log]
        exact ⟨en, hlog⟩
      | retired dropped =>
        obtain ⟨_, ⟨m', hm', hrej⟩, _⟩ := hout
        have hrow := mem_scanPrefix.mp hm'
        rw [← hl.topic r hr, hm] at hrow
        cases hrow
        have hfilter := (hpre tr htr).filterOf hr
        rw [hf] at hfilter
        cases hfilter
        rw [hl.filter, hacc] at hrej
        cases hrej
      | granted r' => exact absurd (hslot.trans hpend) (by decide)
      | idle => exact absurd (hslot.trans hpend) (by decide)
      | _ => exact hout.elim
    · rw [hsame, hc] at hc'
      cases hc'
      rw [hopen] at hdone
      cases hdone

end Runs

/-- What `FilterCompiles` asks for, as a check on the call alone. -/
def filterCheck : Op → Bool
  | .createSubscription _ _ opts => (compileFilter opts.filter).isOk
  | _ => true

theorem FilterCompiles.of_check {kv : Kv} {op : Op} (h : filterCheck op = true) :
    FilterCompiles kv op := by
  rintro name topic opts t n rfl _ _ _
  simp only [filterCheck] at h
  cases hf : compileFilter opts.filter with
  | ok f => exact ⟨f, rfl⟩
  | error e =>
    rw [hf] at h
    cases h

def kindFilter : CreateSubscriptionOptions := { filter := "attributes.kind = \"a\"" }

/-- Message `1` has no attributes, message `2` passes the filter. -/
def filtered : List Input :=
  setup kindFilter ++
    [⟨0, .publish "projects/p/topics/top1" [⟨[4, 5], SortedMap.insert ∅ "kind" "a", ""⟩]⟩]

theorem filters_enforced_on_kind :
    (∃ d, Delivers (firstOf filtered (pullA 0)) 2 2 d) ∧ FiltersEnforced (filtered ++ [pullA 0]) := by
  have hfacts : (deliveryOf (firstOf filtered (pullA 0)) 2 2).isSome = true ∧
      (filtered ++ [pullA 0]).all (fun i => filterCheck i.op) = true := by
    decide +kernel
  obtain ⟨d, hd⟩ := Option.isSome_iff_exists.mp hfacts.1
  refine ⟨⟨d, delivers_of_deliveryOf hd⟩, filters_enforced _ ?_⟩
  exact Run.forall_trace_of_inputs fun i hi _ => .of_check (List.all_eq_true.mp hfacts.2 i hi)

/-- A filter that does not parse is stored, and every message passes. -/
theorem broken_filter_stored :
    ¬ FiltersEnforced (setup { filter := "kind = a" } ++ [pullA 0]) ∧
      ∃ d, Delivers (firstOf (setup { filter := "kind = a" }) (pullA 0)) 2 1 d := by
  have hfacts : ((Run.final step start (setup { filter := "kind = a" } ++ [pullA 0])).kv.subs.get
        2).map SubscriptionRecord.filter = some "kind = a" ∧
      (compileFilter "kind = a").isOk = false ∧
      (deliveryOf (firstOf (setup { filter := "kind = a" }) (pullA 0)) 2 1).isSome = true := by
    decide +kernel
  obtain ⟨hstored, hbroken, hdel⟩ := hfacts
  obtain ⟨d, hd⟩ := Option.isSome_iff_exists.mp hdel
  refine ⟨fun h => ?_, d, delivers_of_deliveryOf hd⟩
  obtain ⟨r, hr, hfilter⟩ := Option.map_eq_some_iff.mp hstored
  obtain ⟨f, hf⟩ := h.compile 2 r hr
  rw [hfilter] at hf
  rw [hf] at hbroken
  cases hbroken

end OpenPubusb
