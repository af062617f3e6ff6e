import Mathlib.Logic.Function.Basic
import OpenPubusb.RefineOps

/-! Concurrent acknowledgements and lease calls on one subscription. Each call
reads the cursor before it takes the lease mutex and writes the cursor under
it, so that a call may write back a cursor that others have moved on from. -/

namespace OpenPubusb

open Hoare

inductive DeliveryCall where
  | acknowledge (ackIds : List String)
  | leaseNext (maxMessages nowMs ackDeadlineSecs : Int)

inductive CallPhase where
  | start
  | loaded (cursor : CursorRecord) (filter : Option Expr)
  | finished

def DeliveryCall.load (subId : Nat) : DeliveryCall → EngineM CallPhase
  | .acknowledge ackIds =>
    if ackIds = [] then pure .finished
    else do
      let cursor ← loadCursor subId
      pure (.loaded cursor none)
  | .leaseNext maxMessages _ _ =>
    if maxMessages ≤ 0 then pure .finished
    else do
      let cursor ← loadCursor subId
      let filter ← compiledFilter subId
      pure (.loaded cursor filter)

def DeliveryCall.locked (subId topicId : Nat) (cursor : CursorRecord) (filter : Option Expr) :
    DeliveryCall → EngineM (List Delivered)
  | .acknowledge ackIds => do
    acknowledgeLocked subId cursor ackIds
    pure []
  | .leaseNext maxMessages nowMs secs =>
    leaseNextLocked ⟨subId, topicId, maxMessages.toNat, nowMs, secs, filter⟩ cursor

def DeliveryCall.whole (subId topicId : Nat) (call : DeliveryCall) : EngineM (List Delivered) := do
  match ← call.load subId with
  | .loaded cursor filter => call.locked subId topicId cursor filter
  | _ => pure []

theorem whole_acknowledge (subId topicId : Nat) (ackIds : List String) :
    (DeliveryCall.acknowledge ackIds).whole subId topicId = (do
      OpenPubusb.acknowledge subId ackIds
      pure []) := by
  by_cases h : ackIds = []
  · simp [DeliveryCall.whole, DeliveryCall.load, OpenPubusb.acknowledge, h]
  · simp [DeliveryCall.whole, DeliveryCall.load, DeliveryCall.locked, OpenPubusb.acknowledge, h]

theorem whole_leaseNext (subId topicId : Nat) (maxMessages nowMs secs : Int) :
    (DeliveryCall.leaseNext maxMessages nowMs secs).whole subId topicId =
      OpenPubusb.leaseNext subId topicId maxMessages nowMs secs := by
  by_cases h : maxMessages ≤ 0
  · simp [DeliveryCall.whole, DeliveryCall.load, OpenPubusb.leaseNext, h]
  · simp [DeliveryCall.whole, DeliveryCall.load, DeliveryCall.locked, OpenPubusb.leaseNext, h]

structure Callers where
  engine : Engine
  calls : Nat → DeliveryCall × CallPhase

def Callers.proceed (s : Callers) (k : Nat) (e : Engine) (phase : CallPhase) : Callers :=
  ⟨e, Function.update s.calls k ((s.calls k).1, phase)⟩

/-- The call `k` makes its next step; the reply is what it delivers. -/
def Callers.step (subId topicId : Nat) (s : Callers) (k : Nat) : List Delivered × Callers :=
  match (s.calls k).2 with
  | .start =>
    match (s.calls k).1.load subId s.engine with
    | .ok phase e => ([], s.proceed k e phase)
    | .error _ e => ([], s.proceed k e .finished)
  | .loaded cursor filter =>
    match (s.calls k).1.locked subId topicId cursor filter s.engine with
    | .ok ds e => (ds, s.proceed k e .finished)
    | .error _ e => ([], s.proceed k e .finished)
  | .finished => ([], s)

def Callers.begin (e : Engine) (calls : Nat → DeliveryCall) : Callers :=
  ⟨e, fun k => (calls k, .start)⟩

def Callers.cursor (s : Callers) (subId : Nat) : Option CursorRecord :=
  s.engine.kv.cursors.get subId

/-- The critical section that comes next starts from the stored cursor; an
acknowledgement none of whose ids names a lease writes nothing. -/
def Current (subId : Nat) (s : Callers) (k : Nat) : Prop :=
  ∀ cursor filter, (s.calls k).2 = .loaded cursor filter →
    s.cursor subId = some cursor ∨
      ∃ ackIds, (s.calls k).1 = .acknowledge ackIds ∧ ∀ i q, ¬ Hit s.engine.leases ackIds i q

/-- The critical section that comes next acknowledges a lease on `q`. -/
def Applies (s : Callers) (k q : Nat) : Prop :=
  ∃ ackIds cursor filter i, s.calls k = (.acknowledge ackIds, .loaded cursor filter) ∧
    Hit s.engine.leases ackIds i q

/-- What holds between the calls on a subscription with the record `r`. -/
structure Served (subId : Nat) (r : SubscriptionRecord) (s : Callers) : Prop where
  wf : s.engine.WellFormed
  record : s.engine.kv.subs.get subId = some r

variable {subId k : Nat} {r : SubscriptionRecord} {s : Callers}

/-- What one step does to the cursor. -/
structure CallStep (subId : Nat) (r : SubscriptionRecord) (s : Callers) (k : Nat)
    (ds : List Delivered) (t : Callers) : Prop where
  served : Served subId r t
  advanced : ∀ {c}, s.cursor subId = some c → ∃ c', t.cursor subId = some c' ∧ c.Advanced c'
  applied : ∀ {q}, Applies s k q → ∃ c', t.cursor subId = some c' ∧ c'.isDone q = true
  delivered : ∀ {c}, s.cursor subId = some c → ∀ d ∈ ds, c.isDone d.seq = false

theorem callStep_of_idle (h : Served subId r s) (hn : ∀ q, ¬ Applies s k q) {e : Engine}
    {fs : SortedMap Nat (Option Expr)} (he : e = { s.engine with filters := fs })
    (phase : CallPhase) : CallStep subId r s k [] (s.proceed k e phase) := by
  subst he
  have hwf := h.wf
  refine ⟨⟨⟨hwf.kv, hwf.healthy, hwf.anchored, hwf.coherent, hwf.session⟩, h.record⟩,
    fun {c} hc => ⟨c, hc, .refl c⟩, fun {q} hq => absurd hq (hn q), fun _ d hd => ?_⟩
  cases hd

theorem callStep_load (h : Served subId r s) (hph : (s.calls k).2 = .start) :
    CallStep subId r s k (s.step subId r.topicId k).1 (s.step subId r.topicId k).2 := by
  have hn : ∀ q, ¬ Applies s k q := by
    rintro q ⟨_, _, _, _, hk, _⟩
    rw [hk] at hph
    cases hph
  have hload : Ensures ((s.calls k).1.load subId) s.engine
      (fun _ e => ∃ fs, e = { s.engine with filters := fs })
      (fun _ e => ∃ fs, e = { s.engine with filters := fs }) := by
    cases (s.calls k).1 with
    | acknowledge ackIds =>
      simp only [DeliveryCall.load, loadCursor, ensures_ite, ensures_pure, ensures_bind, ensures_get]
      refine ⟨fun _ => ⟨_, rfl⟩, fun _ => ?_⟩
      cases s.engine.kv.cursors.get subId with
      | none => exact ⟨_, rfl⟩
      | some c => exact ⟨_, rfl⟩
    | leaseNext n now secs =>
      simp only [DeliveryCall.load, loadCursor, ensures_ite, ensures_pure, ensures_bind, ensures_get]
      refine ⟨fun _ => ⟨_, rfl⟩, fun _ => ?_⟩
      cases s.engine.kv.cursors.get subId with
      | none => exact ⟨_, rfl⟩
      | some c => exact ensures_compiledFilter fun fs => ⟨fs, rfl⟩
  unfold Callers.step
  rw [hph]
  cases hm : (s.calls k).1.load subId s.engine with
  | ok phase e =>
    obtain ⟨fs, he⟩ := hload.of_ok hm
    exact callStep_of_idle h hn he phase
  | error err e =>
    obtain ⟨fs, he⟩ := hload.of_error hm
    exact callStep_of_idle h hn he .finished

theorem callStep_locked (h : Served subId r s) {cursor : CursorRecord} {filter : Option Expr}
    (hph : (s.calls k).2 = .loaded cursor filter) (hcur : Current subId s k) :
    CallStep subId r s k (s.step subId r.topicId k).1 (s.step subId r.topicId k).2 := by
  have hwf := h.wf
  have ht : ∀ r', s.engine.kv.subs.get subId = some r' → r'.topicId = r.topicId := by
    intro r' hr'
    rw [h.record] at hr'
    cases hr'
    rfl
  have hlocked : Ensures ((s.calls k).1.locked subId r.topicId cursor filter) s.engine
      (fun ds e => CallStep subId r s k ds (s.proceed k e .finished))
      (fun _ e => CallStep subId r s k [] (s.proceed k e .finished)) := by
    cases hkind : (s.calls k).1 with
    | acknowledge ackIds =>
      have happ : ∀ {q}, Applies s k q → ∃ i, Hit s.engine.leases ackIds i q := by
        rintro q ⟨ids, _, _, i, hk, hhit⟩
        rw [hk] at hkind
        cases hkind
        exact ⟨i, hhit⟩
      simp only [DeliveryCall.locked, ensures_bind, ensures_pure]
      rcases hcur cursor filter hph with hc | ⟨ids, hids, hno⟩
      · refine (ensures_acknowledgeLocked ackIds hwf.healthy hwf.coherent hc _).mono
          (fun _ e ha => ?_) (fun _ _ h => h)
        refine ⟨⟨ha.wellFormed hwf, ?_⟩, fun {c} hc => ?_, fun {q} hq => ?_, fun _ d hd => ?_⟩
        · change e.kv.subs.get subId = some r
          rw [ha.extended.subs]
          exact h.record
        · obtain ⟨c', hc', _, hadv⟩ := ha.done hc
          exact ⟨c', hc', hadv⟩
        · obtain ⟨c', hc', hd, _⟩ := ha.done hc
          exact ⟨c', hc', (hd q).mpr (Or.inr (happ hq))⟩
        · cases hd
      · rw [hids] at hkind
        cases hkind
        simp only [acknowledgeLocked, ensures_bind]
        refine (ensures_ackAll ackIds hwf.healthy hwf.coherent (cursor, false) _).mono
          (fun c' e ha => ?_) (fun _ _ h => h)
        obtain ⟨dlv, w, hkv⟩ := ha.rest
        rw [ha.kept hno]
        have hsame : e.kv.cursors = s.engine.kv.cursors := by rw [hkv]
        refine ⟨⟨hwf.of_rest ⟨dlv, w, hkv⟩ ha.coherent ha.streams, ?_⟩, fun {c} hc => ?_,
          fun {q} hq => ?_, fun _ d hd => ?_⟩
        · change e.kv.subs.get subId = some r
          rw [hkv]
          exact h.record
        · refine ⟨c, ?_, .refl c⟩
          change e.kv.cursors.get subId = some c
          rw [hsame]
          exact hc
        · obtain ⟨i, hhit⟩ := happ hq
          exact absurd hhit (hno i q)
        · cases hd
    | leaseNext n now secs =>
      have happ : ∀ q, ¬ Applies s k q := by
        rintro q ⟨_, _, _, _, hk, _⟩
        rw [hk] at hkind
        cases hkind
      have hc : s.cursor subId = some cursor := by
        rcases hcur cursor filter hph with hc | ⟨ids, hids, _⟩
        · exact hc
        · rw [hkind] at hids
          cases hids
      simp only [DeliveryCall.locked]
      refine (ensures_leaseNextLocked (a := ⟨subId, r.topicId, n.toNat, now, secs, filter⟩)
        hwf hc ht).mono (fun ds e hd => ?_) (fun _ e hd => ?_)
      · refine ⟨⟨hd.wellFormed hwf, ?_⟩, hd.advanced, fun {q} hq => absurd hq (happ q), ?_⟩
        · change e.kv.subs.get subId = some r
          rw [hd.extended.subs]
          exact h.record
        · intro c hc' d hmem
          obtain ⟨ed, hen, _, ho⟩ := hd.slots d.seq
          have hin : d ∈ deliveriesOf ds d.seq := List.mem_filter.mpr ⟨hmem, by simp⟩
          cases ed with
          | granted rec =>
            obtain ⟨c₁, _, hc₁, _, hnot, _⟩ := Kv.pending_iff.mp hen.1
            rw [show s.engine.kv.cursors.get subId = some c from hc', Option.some.injEq] at hc₁
            rw [hc₁]
            exact hnot
          | forwarded saved =>
            rw [ho.2.1] at hin
            cases hin
          | idle =>
            rw [ho.1] at hin
            cases hin
          | retired dropped =>
            rw [ho.2.2.1] at hin
            cases hin
          | _ => exact ho.elim
      · refine ⟨⟨hd.wellFormed hwf, ?_⟩, hd.advanced, fun {q} hq => absurd hq (happ q),
          fun _ d hmem => ?_⟩
        · change e.kv.subs.get subId = some r
          rw [hd.extended.subs]
          exact h.record
        · cases hmem
  unfold Callers.step
  rw [hph]
  cases hm : (s.calls k).1.locked subId r.topicId cursor filter s.engine with
  | ok ds e =>
    simp only [hm]
    exact hlocked.of_ok hm
  | error err e =>
    simp only [hm]
    exact hlocked.of_error hm

theorem callStep (h : Served subId r s) (hcur : Current subId s k) :
    CallStep subId r s k (s.step subId r.topicId k).1 (s.step subId r.topicId k).2 := by
  cases hph : (s.calls k).2 with
  | start => exact callStep_load h hph
  | loaded cursor filter => exact callStep_locked h hph hcur
  | finished =>
    have hstep : s.step subId r.topicId k = ([], s) := by
      unfold Callers.step
      rw [hph]
    rw [hstep]
    refine ⟨h, fun {c} hc => ⟨c, hc, .refl c⟩, fun {q} hq => ?_, fun _ d hd => ?_⟩
    · obtain ⟨_, _, _, _, hk, _⟩ := hq
      rw [hk] at hph
      cases hph
    · cases hd

section Runs

variable {calls : Nat → DeliveryCall} {schedule : List Nat} {e : Engine}

theorem served_final (h : Served subId r s)
    (hc : ∀ tr ∈ Run.trace (Callers.step subId r.topicId) s schedule, Current subId tr.pre tr.input) :
    Served subId r (Run.final (Callers.step subId r.topicId) s schedule) :=
  Run.inv_final (P := Served subId r) (C := fun tr => Current subId tr.pre tr.input)
    (fun _ _ h hc => (callStep h hc).served) h hc

theorem advanced_final (h : Served subId r s) {c : CursorRecord} (hcur : s.cursor subId = some c)
    (hc : ∀ tr ∈ Run.trace (Callers.step subId r.topicId) s schedule, Current subId tr.pre tr.input) :
    ∃ c', (Run.final (Callers.step subId r.topicId) s schedule).cursor subId = some c' ∧
      c.Advanced c' := by
  have hinv := Run.inv_final
    (P := fun t => Served subId r t ∧ ∃ c', t.cursor subId = some c' ∧ c.Advanced c')
    (C := fun tr => Current subId tr.pre tr.input) (fun t k h hc => ?_) ⟨h, c, hcur, .refl c⟩ hc
  · exact hinv.2
  · obtain ⟨c', hc', hadv⟩ := h.2
    have hstep := callStep h.1 hc
    obtain ⟨c'', hc'', hadv'⟩ := hstep.advanced hc'
    exact ⟨hstep.served, c'', hc'', hadv.trans hadv'⟩

theorem split_run (h : Served subId r s)
    (hc : ∀ tr ∈ Run.trace (Callers.step subId r.topicId) s schedule, Current subId tr.pre tr.input)
    {l l' : List (Run.Transition Callers Nat (List Delivered))}
    {tr : Run.Transition Callers Nat (List Delivered)}
    (hl : Run.trace (Callers.step subId r.topicId) s schedule = l ++ tr :: l') :
    Served subId r tr.pre ∧ CallStep subId r tr.pre tr.input tr.reply tr.post ∧
      ∃ later, l' = Run.trace (Callers.step subId r.topicId) tr.post later ∧
        Run.final (Callers.step subId r.topicId) s schedule =
          Run.final (Callers.step subId r.topicId) tr.post later := by
  obtain ⟨is₁, k, is₂, hsched, hl₁, hk, hl₂⟩ := Run.trace_eq_append hl
  have hpre : Served subId r tr.pre := by
    rw [hk]
    refine served_final h fun tr' htr' => hc tr' ?_
    rw [hl, ← hl₁] at *
    exact List.mem_append_left _ htr'
  have hmem : tr ∈ Run.trace (Callers.step subId r.topicId) s schedule := by
    rw [hl]
    exact List.mem_append_right _ List.mem_cons_self
  have hstep := callStep hpre (hc tr hmem)
  have hval : tr = Run.transition (Callers.step subId r.topicId) tr.pre tr.input :=
    Run.valid_of_mem_trace hmem
  refine ⟨hpre, ?_, is₂, hl₂, ?_⟩
  · rw [hval]
    exact hstep
  · rw [hsched, Run.final_append, hk]
    rfl

theorem concurrent_acks_kept (is : List Input) (subId : Nat) (r : SubscriptionRecord)
    (hr : (Run.final step start is).kv.subs.get subId = some r) (calls : Nat → DeliveryCall)
    (schedule : List Nat)
    (hc : ∀ tr ∈ Run.trace (Callers.step subId r.topicId) (.begin (Run.final step start is) calls)
      schedule, Current subId tr.pre tr.input) :
    (∀ tr ∈ Run.trace (Callers.step subId r.topicId) (.begin (Run.final step start is) calls) schedule,
      (∀ q, Applies tr.pre tr.input q → ∃ c,
        (Run.final (Callers.step subId r.topicId) (.begin (Run.final step start is) calls)
          schedule).cursor subId = some c ∧ c.isDone q = true) ∧
      ∀ c, tr.pre.cursor subId = some c →
        ∃ c', tr.post.cursor subId = some c' ∧ c.ackedFloor ≤ c'.ackedFloor) ∧
    ∀ l tr l', Run.trace (Callers.step subId r.topicId) (.begin (Run.final step start is) calls)
      schedule = l ++ tr :: l' → ∀ q, Applies tr.pre tr.input q → ∀ tr' ∈ l', ∀ d ∈ tr'.reply,
        d.seq ≠ q := by
  have hstart : Served subId r (.begin (Run.final step start is) calls) := ⟨wellFormed_final is, hr⟩
  constructor
  · intro tr htr
    obtain ⟨l, l', hl⟩ := List.append_of_mem htr
    obtain ⟨_, hstep, later, hlater, hfinal⟩ := split_run hstart hc hl
    constructor
    · intro q hq
      obtain ⟨c', hc', hdone⟩ := hstep.applied hq
      have hrest : ∀ tr' ∈ Run.trace (Callers.step subId r.topicId) tr.post later,
          Current subId tr'.pre tr'.input := by
        intro tr' htr'
        refine hc tr' ?_
        rw [hl, hlater]
        exact List.mem_append_right _ (List.mem_cons_of_mem _ htr')
      obtain ⟨c'', hc'', hadv⟩ := advanced_final hstep.served hc' hrest
      rw [hfinal]
      exact ⟨c'', hc'', hadv.done q hdone⟩
    · intro c hcur
      obtain ⟨c', hc', hadv⟩ := hstep.advanced hcur
      exact ⟨c', hc', hadv.floor⟩
  · intro l tr l' hl q hq tr' htr' d hd heq
    obtain ⟨_, hstep, later, hlater, _⟩ := split_run hstart hc hl
    obtain ⟨c', hc', hdone⟩ := hstep.applied hq
    have hrest : ∀ tr' ∈ Run.trace (Callers.step subId r.topicId) tr.post later,
        Current subId tr'.pre tr'.input := by
      intro tr' htr'
      refine hc tr' ?_
      rw [hl, hlater]
      exact List.mem_append_right _ (List.mem_cons_of_mem _ htr')
    rw [hlater] at htr'
    obtain ⟨l₁, l₂, hl₂⟩ := List.append_of_mem htr'
    obtain ⟨_, hstep', _⟩ := split_run hstep.served hrest hl₂
    obtain ⟨is₁, j, _, _, hl₁, hj, _⟩ := Run.trace_eq_append hl₂
    have hbefore : ∀ x ∈ Run.trace (Callers.step subId r.topicId) tr.post is₁,
        Current subId x.pre x.input := by
      intro x hx
      refine hrest x ?_
      rw [hl₂, hl₁]
      exact List.mem_append_left _ hx
    obtain ⟨c'', hc'', hadv⟩ := advanced_final hstep.served hc' hbefore
    have hpre : tr'.pre.cursor subId = some c'' := by
      rw [hj]
      exact hc''
    have hnot := hstep'.delivered hpre d hd
    rw [heq, hadv.done q hdone] at hnot
    cases hnot

end Runs

theorem step_load_acknowledge {topicId : Nat} {x : String} {c : CursorRecord}
    (hk : s.calls k = (.acknowledge [x], .start)) (hc : s.cursor subId = some c) :
    s.step subId topicId k = ([], s.proceed k s.engine (.loaded c none)) := by
  have hload : (DeliveryCall.acknowledge [x]).load subId s.engine =
      .ok (.loaded c none) s.engine := by
    have hc' : s.engine.kv.cursors.get subId = some c := hc
    simp [DeliveryCall.load, loadCursor, bind, EStateM.bind, get, getThe, MonadStateOf.get,
      estateGet_apply, hc', pure, EStateM.pure]
  unfold Callers.step
  rw [hk]
  simp only [hload]

theorem calls_step_ne {topicId j : Nat} (hj : j ≠ k) :
    (s.step subId topicId k).2.calls j = s.calls j := by
  have hproceed : ∀ e phase, (s.proceed k e phase).calls j = s.calls j :=
    fun _ _ => Function.update_of_ne hj _ _
  unfold Callers.step
  cases (s.calls k).2 with
  | start => cases (s.calls k).1.load subId s.engine <;> exact hproceed _ _
  | loaded cursor filter =>
    simp only
    cases (s.calls k).1.locked subId topicId cursor filter s.engine <;> exact hproceed _ _
  | finished => rfl

theorem acknowledge_undisturbed {topicId i q : Nat} {x : String} {c : CursorRecord}
    (hk : s.calls k = (.acknowledge [x], .start)) (hc : s.cursor subId = some c)
    (hhit : Hit s.engine.leases [x] i q) :
    Current subId s k ∧ Current subId (s.step subId topicId k).2 k ∧
      Applies (s.step subId topicId k).2 k q := by
  have hload : s.step subId topicId k = ([], s.proceed k s.engine (.loaded c none)) :=
    step_load_acknowledge hk hc
  have hcalls : (s.step subId topicId k).2.calls k = (.acknowledge [x], .loaded c none) := by
    rw [hload]
    show Function.update s.calls k ((s.calls k).1, _) k = _
    rw [Function.update_self, hk]
  have hengine : (s.step subId topicId k).2.engine = s.engine := by rw [hload]; rfl
  refine ⟨fun cursor filter hph => ?_, fun cursor filter hph => Or.inl ?_,
    [x], c, none, i, hcalls, by rw [hengine]; exact hhit⟩
  · rw [hk] at hph
    cases hph
  · rw [hcalls] at hph
    cases hph
    show (s.step subId topicId k).2.engine.kv.cursors.get subId = some c
    rw [hengine]
    exact hc

/-- Two messages leased to `subA`, and a call to acknowledge each of them. -/
def twoLeased : List Input :=
  setup {} ++ [⟨0, .publish "projects/p/topics/top1" [⟨[4], ∅, ""⟩]⟩,
    ⟨1000, .pull "projects/p/subscriptions/subA" 2⟩]

def twoAcks (k : Nat) : DeliveryCall := .acknowledge [encodeAckId 2 (k + 1) 1]

def ackStart : Callers := .begin (Run.final step start twoLeased) twoAcks

theorem ackStart_facts : ∃ r c, ackStart.engine.kv.subs.get 2 = some r ∧ r.topicId = 1 ∧
    ackStart.cursor 2 = some c ∧ Hit ackStart.engine.leases [encodeAckId 2 1 1] 2 1 := by
  have hrun : (ackStart.engine.kv.subs.get 2).map SubscriptionRecord.topicId = some 1 ∧
      (ackStart.cursor 2).isSome = true ∧
      (ackStart.engine.leases.get 2 1).map Lease.generation = some 1 ∧
      decodeAckId (encodeAckId 2 1 1) = some (2, 1, 1) := by decide +kernel
  obtain ⟨hr, hc, hl, hd⟩ := hrun
  obtain ⟨r, hr, ht⟩ := Option.map_eq_some_iff.mp hr
  obtain ⟨c, hc⟩ := Option.isSome_iff_exists.mp hc
  obtain ⟨l, hl, hg⟩ := Option.map_eq_some_iff.mp hl
  exact ⟨r, c, hr, ht, hc, encodeAckId 2 1 1, List.mem_singleton_self _, l, hl, by rw [hd, hg]⟩

theorem secondAck_facts : ∃ c, (Run.final (Callers.step 2 1) ackStart [0, 0]).cursor 2 = some c ∧
    Hit (Run.final (Callers.step 2 1) ackStart [0, 0]).engine.leases [encodeAckId 2 2 1] 2 2 := by
  have hrun : ((Run.final (Callers.step 2 1) ackStart [0, 0]).cursor 2).isSome = true ∧
      ((Run.final (Callers.step 2 1) ackStart [0, 0]).engine.leases.get 2 2).map
        Lease.generation = some 1 ∧
      decodeAckId (encodeAckId 2 2 1) = some (2, 2, 1) := by decide +kernel
  obtain ⟨hc, hl, hd⟩ := hrun
  obtain ⟨c, hc⟩ := Option.isSome_iff_exists.mp hc
  obtain ⟨l, hl, hg⟩ := Option.map_eq_some_iff.mp hl
  exact ⟨c, hc, encodeAckId 2 2 1, List.mem_singleton_self _, l, hl, by rw [hd, hg]⟩

/-- One call after the other keeps both acknowledgements. -/
theorem serial_ack_kept :
    ∃ c, (Run.final (Callers.step 2 1) ackStart [0, 0, 1, 1]).cursor 2 = some c ∧
      c.isDone 1 = true ∧ c.isDone 2 = true := by
  obtain ⟨r, c, hr, ht, hc, hhit⟩ := ackStart_facts
  obtain ⟨c', hc', hhit'⟩ := secondAck_facts
  have hcalls : ((ackStart.step 2 1 0).2.step 2 1 0).2.calls 1 =
      (.acknowledge [encodeAckId 2 2 1], .start) := by
    rw [calls_step_ne (by decide), calls_step_ne (by decide)]
    rfl
  have h₀ := @acknowledge_undisturbed 2 0 ackStart 1 2 1 _ c rfl hc hhit
  have h₁ := @acknowledge_undisturbed 2 1 ((ackStart.step 2 1 0).2.step 2 1 0).2 1 2 2 _ c'
    hcalls hc' hhit'
  have hkept := concurrent_acks_kept twoLeased 2 r hr twoAcks [0, 0, 1, 1]
  rw [ht] at hkept
  obtain ⟨hdone, _⟩ := hkept fun tr htr => by
    simp only [Run.trace, List.mem_cons, List.not_mem_nil, or_false] at htr
    rcases htr with rfl | rfl | rfl | rfl
    · exact h₀.1
    · exact h₀.2.1
    · exact h₁.1
    · exact h₁.2.1
  obtain ⟨c₁, hc₁, hone⟩ := (hdone _ (List.mem_cons_of_mem _ List.mem_cons_self)).1 1 h₀.2.2
  obtain ⟨c₂, hc₂, htwo⟩ := (hdone _ (List.mem_cons_of_mem _ (List.mem_cons_of_mem _
    (List.mem_cons_of_mem _ List.mem_cons_self)))).1 2 h₁.2.2
  rw [hc₁] at hc₂
  cases hc₂
  exact ⟨c₁, hc₁, hone, htwo⟩

/-- Both calls read the cursor before either writes it: the later write undoes the
earlier acknowledgement. -/
theorem overlapping_ack_lost :
    (∃ tr ∈ Run.trace (Callers.step 2 1) ackStart [0, 1, 0, 1], Applies tr.pre tr.input 1) ∧
    ∀ c, (Run.final (Callers.step 2 1) ackStart [0, 1, 0, 1]).cursor 2 = some c →
      c.isDone 1 = false := by
  constructor
  · obtain ⟨r, c, hr, ht, hc, hhit⟩ := ackStart_facts
    have h0 : ackStart.step 2 1 0 = ([], ackStart.proceed 0 ackStart.engine (.loaded c none)) :=
      step_load_acknowledge rfl hc
    have h1 : (ackStart.step 2 1 0).2.step 2 1 1 = ([], (ackStart.step 2 1 0).2.proceed 1
        ackStart.engine (.loaded c none)) := by
      have hk : (ackStart.step 2 1 0).2.calls 1 = (.acknowledge [encodeAckId 2 2 1], .start) := by
        rw [h0]
        rfl
      have hc' : (ackStart.step 2 1 0).2.cursor 2 = some c := by
        rw [h0]
        exact hc
      rw [step_load_acknowledge hk hc', h0]
      rfl
    refine ⟨_, List.mem_cons_of_mem _ (List.mem_cons_of_mem _ List.mem_cons_self),
      [encodeAckId 2 1 1], c, none, 2, ?_, ?_⟩
    · change ((ackStart.step 2 1 0).2.step 2 1 1).2.calls 0 =
        (.acknowledge [encodeAckId 2 1 1], .loaded c none)
      rw [h1, h0]
      rfl
    · change Hit ((ackStart.step 2 1 0).2.step 2 1 1).2.engine.leases [encodeAckId 2 1 1] 2 1
      rw [h1]
      exact hhit
  · have hrun : ((Run.final (Callers.step 2 1) ackStart [0, 1, 0, 1]).cursor 2).map
        (fun c => c.isDone 1) = some false := by decide +kernel
    intro c hc
    rw [hc] at hrun
    exact Option.some.inj hrun

end OpenPubusb
