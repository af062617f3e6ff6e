import OpenPubusb.PushTasks

/-! In every interleaving of a push dispatcher with its deliveries and with other callers:
the permits bound the deliveries, every lease is settled once, and the stream is closed once,
when no delivery is left. -/

namespace OpenPubusb

namespace Dispatcher

def Loop.isStopped : Loop → Bool
  | .stopped => true
  | _ => false

def Loop.isRunning : Loop → Bool
  | .opening => false
  | .stopped => false
  | _ => true

def Loop.pending : Loop → List PulledMessage
  | .dispatching messages => messages
  | _ => []

def Delivery.ackId : Delivery → Option String
  | .posting msg => some msg.ackId
  | .settled => none

/-- The ack id that a call settles on the stream. -/
def settledBy (id : Nat) (i : Input) : Option String :=
  match i.op with
  | .streamAcknowledge sid _ [ackId] => if sid = id then some ackId else none
  | .streamModifyAckDeadline sid _ [ackId] _ => if sid = id then some ackId else none
  | _ => none

section Inversion

variable {args : DispatcherArgs} {st st' : State}

/-- What an event does. -/
inductive Moves (args : DispatcherArgs) (st : State) : Option Input → State → Prop
  | idle : Moves args st none st
  | called (i : Input) (h : st.callable i = true) :
      Moves args st (some i) { st with engine := (step st.engine i).2 }
  | opened (now : Int) (id : Nat) (loop : Loop) (hl : st.loop = .opening)
      (hr : (step st.engine ⟨now, openOp args⟩).1 = .opened id)
      (hloop : loop = .ready ∨ loop = .draining) :
      Moves args st (some ⟨now, openOp args⟩) { st with
        engine := (step st.engine ⟨now, openOp args⟩).2, streamId := some id, loop := loop }
  | refused (now : Int) (hl : st.loop = .opening) :
      Moves args st (some ⟨now, openOp args⟩) { st with
        engine := (step st.engine ⟨now, openOp args⟩).2, loop := .stopped }
  | leased (now : Int) (id : Nat) (hl : st.loop = .ready) (hs : st.streamId = some id)
      (hc : st.cancelled = false) :
      Moves args st (some ⟨now, .leaseForStream id⟩) { st with
        engine := (step st.engine ⟨now, .leaseForStream id⟩).2
        loop := afterLease (step st.engine ⟨now, .leaseForStream id⟩).1 }
  | turned (loop : Loop) (hl : st.loop.isRunning = true) (hloop : loop.isRunning = true)
      (hp : loop.pending = []) (hp' : st.loop.pending = []) :
      Moves args st none { st with loop := loop }
  | spawned (msg : PulledMessage) (msgs : List PulledMessage) (permits : Nat)
      (hl : st.loop = .dispatching (msg :: msgs)) (hp : st.permits = permits + 1) :
      Moves args st none { st with
        loop := .dispatching msgs
        permits := permits
        deliveries := st.deliveries ++ [.posting msg] }
  | cancelled : Moves args st none { st with cancelled := true }
  | settled (k : Nat) (msg : PulledMessage) (success : Bool) (now : Int) (id : Nat)
      (hk : st.deliveries[k]? = some (.posting msg)) (hs : st.streamId = some id) :
      Moves args st (some ⟨now, settleOp args id msg success⟩) { st with
        engine := (step st.engine ⟨now, settleOp args id msg success⟩).2
        deliveries := st.deliveries.set k .settled }
  | released (k : Nat) (hk : st.deliveries[k]? = some .settled) :
      Moves args st none { st with
        permits := st.permits + 1
        deliveries := st.deliveries.eraseIdx k }
  | closed (now : Int) (id : Nat) (hl : st.loop = .draining) (hs : st.streamId = some id)
      (hp : st.permits = concurrency args) :
      Moves args st (some ⟨now, .closeStream id⟩) { st with
        engine := (step st.engine ⟨now, .closeStream id⟩).2
        loop := .stopped }

theorem turn_moves (args : DispatcherArgs) (st : State) (now : Int) (built : Bool) :
    Moves args st (st.turn args now built).1 (st.turn args now built).2 := by
  obtain ⟨engine, streamId, loop, permits, deliveries, cancelled⟩ := st
  cases loop with
  | opening =>
    simp only [State.turn, State.calls]
    cases hr : (step engine ⟨now, openOp args⟩).1 with
    | opened id => exact .opened now id _ rfl hr (by cases built <;> simp)
    | _ => exact .refused now rfl
  | ready =>
    cases streamId with
    | none => exact .idle
    | some id =>
      cases cancelled with
      | true => exact .turned .draining rfl rfl rfl rfl
      | false => exact .leased now id rfl rfl rfl
  | dispatching msgs =>
    cases msgs with
    | nil => exact .turned .ready rfl rfl rfl rfl
    | cons msg msgs =>
      cases permits with
      | zero => exact .idle
      | succ permits => exact .spawned msg msgs permits rfl rfl
  | waiting =>
    cases cancelled with
    | true => exact .turned .draining rfl rfl rfl rfl
    | false => exact .idle
  | draining =>
    cases streamId with
    | none => exact .idle
    | some id =>
      simp only [State.turn]
      split_ifs with hp
      · exact .closed now id rfl rfl hp
      · exact .idle
  | stopped => exact .idle

theorem serve_moves (args : DispatcherArgs) (st : State) (e : Event) :
    Moves args st (st.serve args e).1 (st.serve args e).2 := by
  cases e with
  | call i =>
    simp only [State.serve]
    split_ifs with h
    · exact .called i h
    · exact .idle
  | turn now built => exact turn_moves args st now built
  | wake =>
    simp only [State.serve]
    split
    · next hl => exact .turned .ready (by rw [hl]; rfl) rfl rfl (by rw [hl]; rfl)
    · exact .idle
  | cancel => exact .cancelled
  | settle k success now =>
    simp only [State.serve]
    split
    · next msg id hk hs => exact .settled k msg success now id hk hs
    · exact .idle
  | release k =>
    simp only [State.serve]
    split
    · next hk => exact .released k hk
    · exact .idle

end Inversion

/-- What holds of the stream of a dispatcher after the calls `is`. -/
structure StreamKept (is : List Input) (id : Nat) (loop : Loop) (deliveries : List Delivery) :
    Prop where
  le : id ≤ (Run.final step start is).streams.nextId
  session : (Run.final step start is).streams.sessions.get id = none ↔ loop.isStopped = true
  closes : is.countP (closesStream id) = if loop.isStopped then 1 else 0
  settles : ((leasedFor id (history is)).map Delivered.ackId).Perm
    (is.filterMap (settledBy id) ++
      (loop.pending.map PulledMessage.ackId ++ deliveries.filterMap Delivery.ackId))
  ended : loop.isStopped = true → deliveries = [] ∧
    ∃ is₁ now is₂, is = is₁ ++ ⟨now, .closeStream id⟩ :: is₂ ∧
      ∀ i ∈ is₂, streamNamed i.op ≠ some id

section Stream

variable {is : List Input} {i : Input} {id : Nat} {loop : Loop} {deliveries : List Delivery}

theorem settledBy_unnamed (h : streamNamed i.op ≠ some id) : settledBy id i = none := by
  unfold settledBy
  split
  · next sid _ ackId hop =>
    have hne : sid ≠ id := fun he => h (by rw [hop, he]; rfl)
    rw [if_neg hne]
  · next sid _ ackId _ hop =>
    have hne : sid ≠ id := fun he => h (by rw [hop, he]; rfl)
    rw [if_neg hne]
  · rfl

theorem filterMap_concat (is : List Input) (i : Input) :
    (is ++ [i]).filterMap (settledBy id) =
      is.filterMap (settledBy id) ++ (settledBy id i).toList := by
  rw [List.filterMap_append]
  cases h : settledBy id i <;> simp [h]

theorem StreamKept.unnamed (h : StreamKept is id loop deliveries) (hop : i.op ≠ .restart)
    (hne : streamNamed i.op ≠ some id) : StreamKept (is ++ [i]) id loop deliveries := by
  have hwf := wellFormed_final is
  have hlease : i.op ≠ .leaseForStream id := fun he => hne (by rw [he]; rfl)
  have hclose : ¬ closesStream id i = true := by
    intro he
    rw [closesStream_iff] at he
    exact hne (by rw [he]; rfl)
  refine ⟨?_, ?_, ?_, ?_, fun hs => ⟨(h.ended hs).1, ?_⟩⟩
  · rw [final_concat]
    exact h.le.trans (nextId_le_step hwf hop)
  · rw [final_concat, session_unnamed hwf h.le hop hne]
    exact h.session
  · rw [countP_concat, h.closes, if_neg hclose, Nat.add_zero]
  · rw [leasedFor_concat, leasedBy_eq_nil hlease, List.append_nil, filterMap_concat,
      settledBy_unnamed hne]
    simpa using h.settles
  · obtain ⟨is₁, now, is₂, rfl, hquiet⟩ := (h.ended hs).2
    refine ⟨is₁, now, is₂ ++ [i], by simp, fun j hj => ?_⟩
    rcases List.mem_append.mp hj with hj | hj
    · exact hquiet j hj
    · rw [List.mem_singleton.mp hj]
      exact hne

theorem StreamKept.running (h : StreamKept is id loop deliveries) (hloop : loop.isStopped = false)
    (hop : i.op ≠ .restart) (hclose : i.op ≠ .closeStream id) {loop' : Loop}
    {deliveries' : List Delivery} (hloop' : loop'.isStopped = false)
    (hsettles : ((leasedFor id (history (is ++ [i]))).map Delivered.ackId).Perm
      ((is ++ [i]).filterMap (settledBy id) ++
        (loop'.pending.map PulledMessage.ackId ++ deliveries'.filterMap Delivery.ackId))) :
    StreamKept (is ++ [i]) id loop' deliveries' := by
  have hwf := wellFormed_final is
  refine ⟨?_, ?_, ?_, hsettles, fun hs => ?_⟩
  · rw [final_concat]
    exact h.le.trans (nextId_le_step hwf hop)
  · cases hst : (Run.final step start is).streams.sessions.get id with
    | none =>
      rw [h.session.mp hst] at hloop
      cases hloop
    | some st =>
      obtain ⟨st', hst'⟩ := session_kept hwf hst hop hclose
      rw [final_concat, hst', hloop']
      simp
  · have hno : ¬ closesStream id i = true := fun he => hclose (closesStream_iff.mp he)
    rw [countP_concat, h.closes, hloop, hloop', if_neg hno]
    rfl
  · rw [hloop'] at hs
    cases hs

theorem StreamKept.leased (h : StreamKept is id .ready deliveries) (now : Int) :
    StreamKept (is ++ [⟨now, .leaseForStream id⟩]) id
      (afterLease (step (Run.final step start is) ⟨now, .leaseForStream id⟩).1) deliveries := by
  refine h.running rfl (by simp) (by simp) ?_ ?_
  · unfold afterLease
    split <;> rfl
  · rw [leasedFor_concat, List.map_append, filterMap_concat]
    have hnone : settledBy id ⟨now, .leaseForStream id⟩ = none := rfl
    rw [hnone, Option.toList_none, List.append_nil]
    have hbatch : (leasedBy id (Run.transition step (Run.final step start is)
        ⟨now, .leaseForStream id⟩)).map Delivered.ackId =
        (afterLease (step (Run.final step start is) ⟨now, .leaseForStream id⟩).1).pending.map
          PulledMessage.ackId := by
      simp only [leasedBy, Run.transition]
      cases hr : (step (Run.final step start is) ⟨now, .leaseForStream id⟩).1 with
      | delivered sub ds =>
        show List.map Delivered.ackId (if id = id then ds else []) = _
        rw [if_pos rfl]
        cases ds with
        | nil => rfl
        | cons d ds =>
          simp only [afterLease, Loop.pending, List.map_map]
          rfl
      | _ => rfl
    rw [hbatch]
    have hkept := h.settles
    simp only [Loop.pending, List.map_nil, List.nil_append] at hkept
    refine (hkept.append_right _).trans ?_
    rw [List.append_assoc]
    exact List.Perm.append_left _ List.perm_append_comm

theorem settledBy_settleOp (args : DispatcherArgs) (id : Nat) (msg : PulledMessage)
    (success : Bool) (now : Int) :
    settledBy id ⟨now, settleOp args id msg success⟩ = some msg.ackId := by
  cases success <;> simp [settledBy, settleOp]

theorem acksOn_settleOp (args : DispatcherArgs) (id : Nat) (msg : PulledMessage) (success : Bool) :
    AcksOn id (settleOp args id msg success) := by
  cases success <;> rfl

theorem perm_set_settled {k : Nat} {msg : PulledMessage}
    (hk : deliveries[k]? = some (.posting msg)) :
    (deliveries.filterMap Delivery.ackId).Perm
      (msg.ackId :: (deliveries.set k .settled).filterMap Delivery.ackId) := by
  induction deliveries generalizing k with
  | nil => simp at hk
  | cons d ds ih =>
    cases k with
    | zero =>
      simp only [List.getElem?_cons_zero, Option.some.injEq] at hk
      subst hk
      exact List.Perm.refl _
    | succ k =>
      simp only [List.getElem?_cons_succ] at hk
      have hrest := ih hk
      simp only [List.set_cons_succ]
      cases hd : d.ackId with
      | none => simpa [hd] using hrest
      | some a =>
        simp only [List.filterMap_cons, hd]
        exact (hrest.cons a).trans (List.Perm.swap _ _ _)

theorem StreamKept.settled (h : StreamKept is id loop deliveries) (hloop : loop.isStopped = false)
    (args : DispatcherArgs) {k : Nat} {msg : PulledMessage}
    (hk : deliveries[k]? = some (.posting msg)) (success : Bool) (now : Int) :
    StreamKept (is ++ [⟨now, settleOp args id msg success⟩]) id loop
      (deliveries.set k .settled) := by
  have hacks := acksOn_settleOp args id msg success
  refine h.running hloop ?_ ?_ hloop ?_
  · intro hop
    rw [show settleOp args id msg success = .restart from hop] at hacks
    exact hacks
  · intro hop
    rw [show settleOp args id msg success = .closeStream id from hop] at hacks
    exact hacks
  · have hlease : settleOp args id msg success ≠ .leaseForStream id := by
      intro hop
      rw [hop] at hacks
      exact hacks
    rw [leasedFor_concat, leasedBy_eq_nil hlease, List.append_nil, filterMap_concat,
      settledBy_settleOp, Option.toList_some, List.append_assoc, List.singleton_append]
    refine h.settles.trans (List.Perm.append_left _ ?_)
    exact (List.Perm.append_left _ (perm_set_settled hk)).trans List.perm_middle

theorem StreamKept.closed (h : StreamKept is id .draining []) (now : Int) :
    StreamKept (is ++ [⟨now, .closeStream id⟩]) id .stopped [] := by
  have hwf := wellFormed_final is
  refine ⟨?_, ?_, ?_, ?_, fun _ => ⟨rfl, is, now, [], rfl, by simp⟩⟩
  · rw [final_concat]
    exact h.le.trans (nextId_le_step hwf (by simp))
  · rw [final_concat, closed_session hwf rfl]
    simp [Loop.isStopped]
  · rw [countP_concat, h.closes, closesStream_iff.mpr rfl]
    rfl
  · have hnone : settledBy id ⟨now, .closeStream id⟩ = none := rfl
    rw [leasedFor_concat, leasedBy_eq_nil (by simp [Run.transition]), List.append_nil,
      filterMap_concat, hnone]
    simpa [Loop.pending] using h.settles

theorem opened_sub {s : Engine} {name : String} {secs messages bytes : Int}
    (hop : i.op = .openStream name secs messages bytes) (hr : (step s i).1 = .opened id) :
    ∃ sub, SubscriptionStore.get s.kv name = .ok sub := by
  have h := ensures_openStream_new (s := s) i.nowMs name secs messages bytes
  unfold step at hr
  rw [hop] at hr
  cases hp : perform i.nowMs (.openStream name secs messages bytes) s with
  | error e t =>
    rw [hp] at hr
    cases hr
  | ok r t =>
    obtain ⟨sub, hsub, _⟩ := h.of_ok hp
    exact ⟨sub, hsub⟩

theorem filterMap_eraseIdx {k : Nat} (hk : deliveries[k]? = some .settled) :
    (deliveries.eraseIdx k).filterMap Delivery.ackId = deliveries.filterMap Delivery.ackId := by
  induction deliveries generalizing k with
  | nil => simp at hk
  | cons d ds ih =>
    cases k with
    | zero =>
      simp only [List.getElem?_cons_zero, Option.some.injEq] at hk
      subst hk
      rfl
    | succ k =>
      simp only [List.getElem?_cons_succ] at hk
      simp [List.filterMap_cons, ih hk]

theorem StreamKept.released (h : StreamKept is id loop deliveries) {k : Nat}
    (hk : deliveries[k]? = some .settled) : StreamKept is id loop (deliveries.eraseIdx k) := by
  refine ⟨h.le, h.session, h.closes, ?_, fun hs => ?_⟩
  · rw [filterMap_eraseIdx hk]
    exact h.settles
  · rw [(h.ended hs).1] at hk
    cases hk

theorem streamKept_opened {name : String} {secs messages bytes : Int}
    (hnamed : ∀ j ∈ is, ∀ x, streamNamed j.op = some x →
      x ≤ (Run.final step start is).streams.nextId)
    (hop : i.op = .openStream name secs messages bytes)
    (hr : (step (Run.final step start is) i).1 = .opened id)
    (hloop : loop = .ready ∨ loop = .draining) : StreamKept (is ++ [i]) id loop [] := by
  have hwf := wellFormed_final is
  obtain ⟨sub, hsub⟩ := opened_sub hop hr
  obtain ⟨hid, hst⟩ := opened_session hop hr hsub
  have hrun : loop.isStopped = false ∧ loop.pending = [] := by
    rcases hloop with rfl | rfl
    · exact ⟨rfl, rfl⟩
    · exact ⟨rfl, rfl⟩
  have hno : ∀ j ∈ is ++ [i], streamNamed j.op ≠ some id := by
    intro j hj hn
    rcases List.mem_append.mp hj with hj | hj
    · have hle := hnamed j hj id hn
      omega
    · rw [List.mem_singleton.mp hj, hop] at hn
      cases hn
  refine ⟨?_, ?_, ?_, ?_, fun hs => ?_⟩
  · rw [final_concat]
    exact ((wellFormed_step (i := i) hwf).session hst).1
  · rw [final_concat, hst, hrun.1]
    simp
  · rw [hrun.1]
    refine List.countP_eq_zero.mpr fun j hj hc => hno j hj ?_
    rw [closesStream_iff.mp hc]
    rfl
  · have hleased : leasedFor id (history (is ++ [i])) = [] := by
      refine List.flatMap_eq_nil_iff.mpr fun tr htr => leasedBy_eq_nil fun hl => ?_
      have hin : tr.input ∈ (history (is ++ [i])).map Run.Transition.input :=
        List.mem_map_of_mem htr
      rw [history, Run.map_input_trace] at hin
      exact hno _ hin (by rw [hl]; rfl)
    have hsettled : (is ++ [i]).filterMap (settledBy id) = [] :=
      List.filterMap_eq_nil_iff.mpr fun j hj => settledBy_unnamed (hno j hj)
    rw [hleased, hsettled, hrun.2]
    exact List.Perm.refl _
  · rw [hrun.1] at hs
    cases hs

end Stream

/-- What holds of the dispatcher after the calls `is`. -/
structure Kept (args : DispatcherArgs) (is : List Input) (st : State) : Prop where
  engine : st.engine = Run.final step start is
  permits : st.permits + st.deliveries.length = concurrency args
  named : ∀ i ∈ is, ∀ id, streamNamed i.op = some id → id ≤ st.engine.streams.nextId
  opened : st.loop = .opening → st.streamId = none
  unopened : st.streamId = none → st.loop.isRunning = false ∧ st.deliveries = []
  stream : ∀ id, st.streamId = some id → StreamKept is id st.loop st.deliveries

section Kept

variable {args : DispatcherArgs} {is : List Input} {st st' : State} {o : Option Input}

theorem callable_iff {i : Input} (h : st.callable i = true) : i.op ≠ .restart ∧
    ∀ id, streamNamed i.op = some id →
      id ≤ st.engine.streams.nextId ∧ st.streamId ≠ some id := by
  unfold State.callable at h
  split at h
  · cases h
  · next hop =>
    refine ⟨hop, fun id hid => ?_⟩
    simpa [hid] using h

theorem Moves.call (hm : Moves args st o st') {i : Input} (ho : o = some i) :
    i.op ≠ .restart ∧ st'.engine = (step st.engine i).2 ∧ ∀ id, streamNamed i.op = some id →
      id ≤ st.engine.streams.nextId ∨ st.streamId = some id := by
  cases hm with
  | called j hj =>
    cases ho
    obtain ⟨hop, hid⟩ := callable_iff hj
    exact ⟨hop, rfl, fun id hn => Or.inl (hid id hn).1⟩
  | opened now id =>
    cases ho
    exact ⟨by simp [openOp], rfl, fun x hx => by cases hx⟩
  | refused now =>
    cases ho
    exact ⟨by simp [openOp], rfl, fun x hx => by cases hx⟩
  | leased now id hl hs =>
    cases ho
    refine ⟨by simp, rfl, fun x hx => Or.inr ?_⟩
    cases hx
    exact hs
  | settled k msg success now id hk hs =>
    cases ho
    have hnamed : streamNamed (settleOp args id msg success) = some id := by
      cases success <;> rfl
    refine ⟨?_, rfl, fun x hx => Or.inr ?_⟩
    · intro hop
      rw [show settleOp args id msg success = .restart from hop] at hnamed
      cases hnamed
    · rw [← hx]
      exact hs.trans hnamed.symm
  | closed now id hl hs =>
    cases ho
    refine ⟨by simp, rfl, fun x hx => Or.inr ?_⟩
    cases hx
    exact hs
  | _ => cases ho

theorem Moves.engine_none (hm : Moves args st o st') (ho : o = none) :
    st'.engine = st.engine := by
  cases hm with
  | idle => rfl
  | turned => rfl
  | spawned => rfl
  | cancelled => rfl
  | released => rfl
  | _ => cases ho

theorem isRunning_of_pending {loop : Loop} (h : loop.isRunning = true) :
    loop.isStopped = false := by
  cases loop <;> simp_all [Loop.isRunning, Loop.isStopped]

theorem isStopped_of_isRunning {loop loop' : Loop} (h : loop.isRunning = true)
    (h' : loop'.isRunning = true) : loop'.isStopped = loop.isStopped := by
  rw [isRunning_of_pending h, isRunning_of_pending h']

theorem StreamKept.moved {id : Nat} {loop loop' : Loop} {deliveries deliveries' : List Delivery}
    (h : StreamKept is id loop deliveries) (hloop : loop.isRunning = true)
    (hloop' : loop'.isRunning = true)
    (hperm : (loop.pending.map PulledMessage.ackId ++ deliveries.filterMap Delivery.ackId).Perm
      (loop'.pending.map PulledMessage.ackId ++ deliveries'.filterMap Delivery.ackId)) :
    StreamKept is id loop' deliveries' := by
  have heq := isStopped_of_isRunning hloop hloop'
  refine ⟨h.le, heq ▸ h.session, heq ▸ h.closes, h.settles.trans (List.Perm.append_left _ hperm),
    fun hs => ?_⟩
  rw [isRunning_of_pending hloop'] at hs
  cases hs

theorem Moves.engine_eq (hm : Moves args st o st') (h : Kept args is st) :
    st'.engine = Run.final step start (is ++ o.toList) := by
  cases o with
  | none => rw [hm.engine_none rfl, h.engine, Option.toList_none, List.append_nil]
  | some i => rw [(hm.call rfl).2.1, h.engine, Option.toList_some, final_concat]

theorem Moves.nextId_le (hm : Moves args st o st') (h : Kept args is st) :
    st.engine.streams.nextId ≤ st'.engine.streams.nextId := by
  cases o with
  | none => rw [hm.engine_none rfl]
  | some i =>
    have hwf := wellFormed_final is
    rw [← h.engine] at hwf
    rw [(hm.call rfl).2.1]
    exact nextId_le_step hwf (hm.call rfl).1

theorem Moves.permits (hm : Moves args st o st')
    (h : st.permits + st.deliveries.length = concurrency args) :
    st'.permits + st'.deliveries.length = concurrency args := by
  cases hm with
  | spawned msg msgs permits hl hp =>
    simp only [List.length_append, List.length_singleton]
    omega
  | settled => simpa using h
  | released k hk =>
    have hlt := (List.getElem?_eq_some_iff.mp hk).1
    simp only [List.length_eraseIdx_of_lt hlt]
    omega
  | _ => exact h

theorem Moves.stream (hm : Moves args st o st') (h : Kept args is st) {id : Nat}
    (hid : st'.streamId = some id) :
    StreamKept (is ++ o.toList) id st'.loop st'.deliveries := by
  have hrunning : ∀ {x : Nat}, st.streamId = some x → st.loop ≠ .opening := by
    intro x hx hl
    rw [h.opened hl] at hx
    cases hx
  cases hm with
  | idle =>
    rw [Option.toList_none, List.append_nil]
    exact h.stream id hid
  | cancelled =>
    rw [Option.toList_none, List.append_nil]
    exact h.stream id hid
  | called i hi =>
    obtain ⟨hop, hne⟩ := callable_iff hi
    exact (h.stream id hid).unnamed hop fun hn => (hne id hn).2 hid
  | opened now sid loop hl hr hloop =>
    cases hid
    have hdel := (h.unopened (h.opened hl)).2
    rw [hdel]
    rw [h.engine] at hr
    refine streamKept_opened (fun j hj x hx => ?_) rfl hr hloop
    rw [← h.engine]
    exact h.named j hj x hx
  | refused now hl => exact absurd hl (hrunning hid)
  | leased now sid hl hs hc =>
    have hsid : sid = id := Option.some.inj (hs.symm.trans hid)
    subst hsid
    have hkept := h.stream sid hs
    rw [hl] at hkept
    rw [h.engine]
    exact hkept.leased now
  | turned loop hl hloop hp hp' =>
    rw [Option.toList_none, List.append_nil]
    refine (h.stream id hid).moved hl hloop ?_
    rw [hp, hp']
  | spawned msg msgs permits hl hp =>
    rw [Option.toList_none, List.append_nil]
    refine (h.stream id hid).moved (by rw [hl]; rfl) rfl ?_
    rw [hl]
    simp only [Loop.pending, List.map_cons, List.filterMap_append, List.cons_append]
    refine List.perm_middle.symm.trans (List.Perm.append_left _ ?_)
    exact (List.perm_append_singleton _ _).symm
  | settled k msg success now sid hk hs =>
    have hsid : sid = id := Option.some.inj (hs.symm.trans hid)
    subst hsid
    have hkept := h.stream sid hs
    refine hkept.settled ?_ args hk success now
    cases hstop : st.loop.isStopped with
    | false => rfl
    | true =>
      rw [(hkept.ended hstop).1] at hk
      cases hk
  | released k hk =>
    rw [Option.toList_none, List.append_nil]
    exact (h.stream id hid).released hk
  | closed now sid hl hs hp =>
    have hsid : sid = id := Option.some.inj (hs.symm.trans hid)
    subst hsid
    have hkept := h.stream sid hs
    have hnil : st.deliveries = [] := by
      have := h.permits
      exact List.eq_nil_of_length_eq_zero (by omega)
    rw [hl, hnil] at hkept
    rw [hnil]
    exact hkept.closed now

theorem Kept.serve (h : Kept args is st) (e : Event) :
    Kept args (is ++ (st.serve args e).1.toList) (st.serve args e).2 := by
  have hm := serve_moves args st e
  revert hm
  generalize (st.serve args e).1 = o
  generalize (st.serve args e).2 = st'
  intro hm
  refine ⟨hm.engine_eq h, hm.permits h.permits, fun i hi id hid => ?_, fun hl => ?_, fun hs => ?_,
    fun id hid => hm.stream h hid⟩
  · refine le_trans ?_ (hm.nextId_le h)
    rcases List.mem_append.mp hi with hi | hi
    · exact h.named i hi id hid
    · have ho : o = some i := by simpa using hi
      rcases (hm.call ho).2.2 id hid with hle | hs
      · exact hle
      · rw [h.engine]
        exact (h.stream id hs).le
  · cases hm with
    | opened now id loop hl' hr hloop =>
      rcases hloop with rfl | rfl <;> cases hl
    | leased now id hl' hs hc =>
      dsimp only at hl
      unfold afterLease at hl
      split at hl <;> cases hl
    | turned loop hl' hloop =>
      dsimp only at hl
      rw [hl] at hloop
      cases hloop
    | refused => cases hl
    | spawned => cases hl
    | closed => cases hl
    | _ => exact h.opened hl
  · cases hm with
    | opened => cases hs
    | refused now hl => exact ⟨rfl, (h.unopened hs).2⟩
    | leased now id hl hs' => rw [hs] at hs'; cases hs'
    | turned loop hl => rw [(h.unopened hs).1] at hl; cases hl
    | spawned msg msgs permits hl hp =>
      have hrun := (h.unopened hs).1
      rw [hl] at hrun
      cases hrun
    | settled k msg success now id hk hs' => rw [hs] at hs'; cases hs'
    | released k hk =>
      rw [(h.unopened hs).2] at hk
      cases hk
    | closed now id hl hs' => rw [hs] at hs'; cases hs'
    | _ => exact h.unopened hs

theorem calls_concat (args : DispatcherArgs) (es : List Event) (e : Event) :
    calls args (es ++ [e]) = calls args es ++ ((reach args es).serve args e).1.toList := by
  rw [calls, Run.trace_append, List.filterMap_append]
  refine congrArg _ ?_
  simp only [Run.trace, List.filterMap_cons, List.filterMap_nil, Run.transition]
  show _ = ((Run.final (State.serve args) (.new start args) es).serve args e).1.toList
  cases ((Run.final (State.serve args) (.new start args) es).serve args e).1 <;> rfl

theorem reach_concat (args : DispatcherArgs) (es : List Event) (e : Event) :
    reach args (es ++ [e]) = ((reach args es).serve args e).2 :=
  Run.final_append (State.new start args) es [e]

theorem kept_reach (args : DispatcherArgs) (es : List Event) :
    Kept args (calls args es) (reach args es) := by
  induction es using List.reverseRecOn with
  | nil =>
    refine ⟨rfl, Nat.add_zero _, fun i hi => ?_, fun _ => rfl, fun _ => ⟨rfl, rfl⟩, fun id hid => ?_⟩
    · cases hi
    · cases hid
  | append_singleton es e ih =>
    rw [reach_concat, calls_concat]
    exact ih.serve e

end Kept

/-- In every interleaving of a dispatcher with its deliveries and the other callers: permits
and deliveries add up to the bound; the ack ids leased for its stream are, each as often as it
was leased, those it settled, those under way and those waiting for a permit; and the stream
is there until the loop closes it, once, with nothing under way and everything settled, after
which no call names it. -/
theorem push_settles_each_lease (args : DispatcherArgs) (es : List Event) :
    (reach args es).engine = Run.final step start (calls args es) ∧
      (reach args es).permits + (reach args es).deliveries.length = concurrency args ∧
      ∀ id, (reach args es).streamId = some id →
        let leased := (leasedFor id (history (calls args es))).map Delivered.ackId
        let settled := (calls args es).filterMap (settledBy id)
        leased.Perm (settled ++ ((reach args es).loop.pending.map PulledMessage.ackId ++
          (reach args es).deliveries.filterMap Delivery.ackId)) ∧
        ((reach args es).engine.streams.sessions.get id = none ↔
          (reach args es).loop.isStopped = true) ∧
        (calls args es).countP (closesStream id) =
          (if (reach args es).loop.isStopped then 1 else 0) ∧
        ((reach args es).loop.isStopped = true → (reach args es).deliveries = [] ∧
          leased.Perm settled ∧
          ∃ is₁ now is₂, calls args es = is₁ ++ ⟨now, .closeStream id⟩ :: is₂ ∧
            ∀ i ∈ is₂, streamNamed i.op ≠ some id) := by
  have hkept := kept_reach args es
  refine ⟨hkept.engine, hkept.permits, fun id hid => ?_⟩
  have hstream := hkept.stream id hid
  refine ⟨hstream.settles, hkept.engine ▸ hstream.session, hstream.closes, fun hs => ?_⟩
  obtain ⟨hnil, hclose⟩ := hstream.ended hs
  refine ⟨hnil, ?_, hclose⟩
  have hperm := hstream.settles
  have hpending : (reach args es).loop.pending = [] := by
    cases hl : (reach args es).loop with
    | dispatching msgs =>
      rw [hl] at hs
      cases hs
    | _ => rfl
  rw [hnil, hpending] at hperm
  simpa using hperm

def onePushArgs : DispatcherArgs :=
  { subscriptionFullName := "projects/p/subscriptions/subA", subId := 2, ackDeadlineSecs := 10
    minRetryBackoffSecs := 10, maxRetryBackoffSecs := 600, deadLetterConfigured := false
    pushConfig := ⟨"http://localhost/push", false, false⟩, pushTimeoutSecs := 30
    maxConcurrency := 1 }

/-- A dispatcher that has leased and posted one message when it is cancelled. -/
def onePush : List Event :=
  (setup {}).map Event.call ++ [.turn 1 true, .turn 1 true, .turn 1 true, .cancel]

def onePushStopped : List Event :=
  onePush ++ [.settle 0 true 2, .release 0, .turn 2 true, .turn 2 true, .turn 2 true]

theorem push_settles_each_lease_one :
    ((leasedFor 1 (history (calls onePushArgs onePushStopped))).map Delivered.ackId).Perm
        ((calls onePushArgs onePushStopped).filterMap (settledBy 1)) ∧
      (leasedFor 1 (history (calls onePushArgs onePushStopped))).length = 1 := by
  have hid : (reach onePushArgs onePushStopped).streamId = some 1 := by decide +kernel
  have hstop : (reach onePushArgs onePushStopped).loop.isStopped = true := by decide +kernel
  have hone : (leasedFor 1 (history (calls onePushArgs onePushStopped))).length = 1 := by
    decide +kernel
  obtain ⟨_, _, hstream⟩ := push_settles_each_lease onePushArgs onePushStopped
  exact ⟨((hstream 1 hid).2.2.2 hstop).2.1, hone⟩

section Stopping

variable {args : DispatcherArgs} {is : List Input} {st : State}

def Loop.weight : Loop → Nat
  | .opening => 4
  | .ready => 2
  | .dispatching messages => 3 + 4 * messages.length
  | .waiting => 3
  | .draining => 1
  | .stopped => 0

def Delivery.weight : Delivery → Nat
  | .posting _ => 2
  | .settled => 1

/-- What a cancelled dispatcher has left to do. -/
def State.work (st : State) : Nat := st.loop.weight + (st.deliveries.map Delivery.weight).sum

def Event.isOwn : Event → Bool
  | .call _ => false
  | _ => true

theorem sum_set_settled {deliveries : List Delivery} {k : Nat} {msg : PulledMessage}
    (hk : deliveries[k]? = some (.posting msg)) :
    ((deliveries.set k .settled).map Delivery.weight).sum + 1 =
      (deliveries.map Delivery.weight).sum := by
  induction deliveries generalizing k with
  | nil => simp at hk
  | cons d ds ih =>
    cases k with
    | zero =>
      simp only [List.getElem?_cons_zero, Option.some.injEq] at hk
      subst hk
      simp only [List.set_cons_zero, List.map_cons, List.sum_cons, Delivery.weight]
      omega
    | succ k =>
      simp only [List.getElem?_cons_succ] at hk
      have hrest := ih hk
      simp only [List.set_cons_succ, List.map_cons, List.sum_cons]
      omega

theorem sum_eraseIdx_settled {deliveries : List Delivery} {k : Nat}
    (hk : deliveries[k]? = some .settled) :
    ((deliveries.eraseIdx k).map Delivery.weight).sum + 1 =
      (deliveries.map Delivery.weight).sum := by
  induction deliveries generalizing k with
  | nil => simp at hk
  | cons d ds ih =>
    cases k with
    | zero =>
      simp only [List.getElem?_cons_zero, Option.some.injEq] at hk
      subst hk
      simp only [List.eraseIdx_cons_zero, List.map_cons, List.sum_cons, Delivery.weight]
      omega
    | succ k =>
      simp only [List.getElem?_cons_succ] at hk
      have hrest := ih hk
      simp only [List.eraseIdx_cons_succ, List.map_cons, List.sum_cons]
      omega

/-- Once it is cancelled, a dispatcher's own events change nothing or leave less to do. -/
theorem serve_work (hc : st.cancelled = true) {e : Event} (he : e.isOwn = true) :
    (st.serve args e).2 = st ∨ (st.serve args e).2.work < st.work := by
  obtain ⟨engine, streamId, loop, permits, deliveries, cancelled⟩ := st
  have hc : cancelled = true := hc
  subst hc
  cases e with
  | call i => cases he
  | turn now built =>
    cases loop with
    | opening =>
      right
      simp only [State.serve, State.turn, State.calls, State.work]
      cases (step engine ⟨now, openOp args⟩).1 with
      | opened id => cases built <;> simp [Loop.weight]
      | _ => simp [Loop.weight]
    | ready =>
      cases streamId with
      | none => exact Or.inl rfl
      | some id => exact Or.inr (by simp [State.serve, State.turn, State.work, Loop.weight])
    | dispatching msgs =>
      cases msgs with
      | nil => exact Or.inr (by simp [State.serve, State.turn, State.work, Loop.weight])
      | cons msg msgs =>
        cases permits with
        | zero => exact Or.inl rfl
        | succ permits =>
          right
          simp only [State.serve, State.turn, State.work, Loop.weight, List.length_cons,
            List.map_append, List.sum_append, List.map_cons, List.map_nil, List.sum_cons,
            List.sum_nil, Delivery.weight]
          omega
    | waiting => exact Or.inr (by simp [State.serve, State.turn, State.work, Loop.weight])
    | draining =>
      cases streamId with
      | none => exact Or.inl rfl
      | some id =>
        by_cases hp : permits = concurrency args
        · exact Or.inr (by simp [State.serve, State.turn, State.calls, State.work, Loop.weight, hp])
        · exact Or.inl (by simp [State.serve, State.turn, hp])
    | stopped => exact Or.inl rfl
  | wake =>
    cases loop with
    | waiting => exact Or.inr (by simp [State.serve, State.work, Loop.weight])
    | _ => exact Or.inl rfl
  | cancel => exact Or.inl rfl
  | settle k success now =>
    simp only [State.serve]
    split
    · next msg id hk =>
      right
      have hsum := sum_set_settled hk
      simp only [State.calls, State.work]
      omega
    · exact Or.inl rfl
  | release k =>
    simp only [State.serve]
    split
    · next hk =>
      right
      have hsum := sum_eraseIdx_settled hk
      simp only [State.work]
      omega
    · exact Or.inl rfl

theorem serve_cancelled (hc : st.cancelled = true) (e : Event) :
    (st.serve args e).2.cancelled = true := by
  have hm := serve_moves args st e
  revert hm
  generalize (st.serve args e).1 = o
  generalize (st.serve args e).2 = st'
  intro hm
  cases hm with
  | cancelled => rfl
  | _ => exact hc

theorem exists_delivery (h : Kept args is st) (hc : st.cancelled = true)
    (hd : st.deliveries ≠ []) :
    ∃ e : Event, e.isOwn = true ∧ (st.serve args e).2.work < st.work := by
  obtain ⟨d, ds, hds⟩ := List.exists_cons_of_ne_nil hd
  have hne : st.streamId ≠ none := fun hn => hd (h.unopened hn).2
  obtain ⟨id, hid⟩ := Option.ne_none_iff_exists'.mp hne
  cases d with
  | posting msg =>
    refine ⟨.settle 0 true 0, rfl, (serve_work hc rfl).resolve_left fun heq => ?_⟩
    have hset := congrArg State.deliveries heq
    simp [State.serve, State.calls, hds, hid] at hset
  | settled =>
    refine ⟨.release 0, rfl, (serve_work hc rfl).resolve_left fun heq => ?_⟩
    have hset := congrArg State.deliveries heq
    simp [State.serve, hds] at hset

theorem exists_progress (h : Kept args is st) (hc : st.cancelled = true)
    (hl : st.loop ≠ .stopped) :
    ∃ e : Event, e.isOwn = true ∧ (st.serve args e).2.work < st.work := by
  have hpos : 0 < concurrency args := by
    unfold concurrency
    omega
  have hpermits := h.permits
  have hturn : (st.turn args 0 true).2.loop ≠ st.loop →
      ∃ e : Event, e.isOwn = true ∧ (st.serve args e).2.work < st.work := by
    intro hne
    refine ⟨.turn 0 true, rfl, (serve_work hc rfl).resolve_left fun heq => hne ?_⟩
    exact congrArg State.loop heq
  have hstream : st.loop.isRunning = true → ∃ id, st.streamId = some id := by
    intro hrun
    refine Option.ne_none_iff_exists'.mp fun hn => ?_
    rw [(h.unopened hn).1] at hrun
    cases hrun
  cases hloop : st.loop with
  | opening =>
    refine hturn ?_
    simp only [State.turn, State.calls, hloop]
    cases (step st.engine ⟨0, openOp args⟩).1 <;> simp
  | ready =>
    obtain ⟨id, hid⟩ := hstream (by rw [hloop]; rfl)
    exact hturn (by simp [State.turn, hloop, hid, hc])
  | dispatching msgs =>
    cases msgs with
    | nil => exact hturn (by simp [State.turn, hloop])
    | cons msg msgs =>
      by_cases hp : st.permits = 0
      · refine exists_delivery h hc fun hnil => ?_
        rw [hnil, List.length_nil] at hpermits
        omega
      · obtain ⟨n, hn⟩ := Nat.exists_eq_succ_of_ne_zero hp
        exact hturn (by simp [State.turn, hloop, hn])
  | waiting => exact hturn (by simp [State.turn, hloop, hc])
  | draining =>
    obtain ⟨id, hid⟩ := hstream (by rw [hloop]; rfl)
    by_cases hp : st.permits = concurrency args
    · exact hturn (by simp [State.turn, State.calls, hloop, hid, hp])
    · refine exists_delivery h hc fun hnil => ?_
      rw [hnil, List.length_nil] at hpermits
      omega
  | stopped => exact absurd hloop hl

theorem Moves.cancelled_stays {st' : State} {o : Option Input} (hm : Moves args st o st')
    (h : Kept args is st) (hc : st.cancelled = true) {id : Nat} (hid : st.streamId = some id) :
    st'.cancelled = true ∧ st'.streamId = some id ∧
      leasedFor id (history (is ++ o.toList)) = leasedFor id (history is) := by
  have hcall : ∀ i : Input, i.op ≠ .leaseForStream id →
      leasedFor id (history (is ++ [i])) = leasedFor id (history is) := by
    intro i hi
    rw [leasedFor_concat, leasedBy_eq_nil hi, List.append_nil]
  have hnone : leasedFor id (history (is ++ (none : Option Input).toList)) =
      leasedFor id (history is) := by
    rw [Option.toList_none, List.append_nil]
  have hopening : st.loop ≠ .opening := by
    intro hl
    rw [h.opened hl] at hid
    cases hid
  cases hm with
  | called i hi =>
    refine ⟨hc, hid, hcall i fun hop => ?_⟩
    exact ((callable_iff hi).2 id (by rw [hop]; rfl)).2 hid
  | opened now sid loop hl => exact absurd hl hopening
  | refused now hl => exact absurd hl hopening
  | leased now sid hl hs hc' =>
    rw [hc] at hc'
    cases hc'
  | settled k msg success now sid hk hs =>
    exact ⟨hc, hid, hcall _ fun hop => by cases success <;> cases hop⟩
  | closed now sid hl hs hp => exact ⟨hc, hid, hcall _ fun hop => by cases hop⟩
  | idle => exact ⟨hc, hid, hnone⟩
  | turned => exact ⟨hc, hid, hnone⟩
  | spawned => exact ⟨hc, hid, hnone⟩
  | cancelled => exact ⟨rfl, hid, hnone⟩
  | released => exact ⟨hc, hid, hnone⟩

theorem cancelled_run {es : List Event} (hc : (reach args es).cancelled = true) {id : Nat}
    (hid : (reach args es).streamId = some id) (es' : List Event) :
    (reach args (es ++ es')).cancelled = true ∧ (reach args (es ++ es')).streamId = some id ∧
      leasedFor id (history (calls args (es ++ es'))) =
        leasedFor id (history (calls args es)) := by
  induction es' using List.reverseRecOn with
  | nil =>
    rw [List.append_nil]
    exact ⟨hc, hid, rfl⟩
  | append_singleton es' e ih =>
    obtain ⟨hc', hid', hleased⟩ := ih
    have hm := serve_moves args (reach args (es ++ es')) e
    obtain ⟨hc'', hid'', hleased'⟩ := hm.cancelled_stays (kept_reach args _) hc' hid'
    rw [← List.append_assoc, reach_concat, calls_concat]
    exact ⟨hc'', hid'', hleased'.trans hleased⟩

theorem exists_stopping (n : Nat) {es : List Event} (hc : (reach args es).cancelled = true)
    (hn : (reach args es).work ≤ n) : ∃ es' : List Event, (∀ e ∈ es', e.isOwn = true) ∧
      es'.length ≤ n ∧ (reach args (es ++ es')).loop = .stopped := by
  induction n generalizing es with
  | zero =>
    refine ⟨[], by simp, le_rfl, ?_⟩
    rw [List.append_nil]
    by_contra hl
    obtain ⟨e, _, hlt⟩ := exists_progress (kept_reach args es) hc hl
    omega
  | succ n ih =>
    by_cases hl : (reach args es).loop = .stopped
    · exact ⟨[], by simp, Nat.zero_le _, by rwa [List.append_nil]⟩
    · obtain ⟨e, he, hlt⟩ := exists_progress (kept_reach args es) hc hl
      have hc' : (reach args (es ++ [e])).cancelled = true := by
        rw [reach_concat]
        exact serve_cancelled hc e
      obtain ⟨es', hown, hlen, hstop⟩ := ih hc' (by rw [reach_concat]; omega)
      refine ⟨e :: es', ?_, Nat.succ_le_succ hlen, ?_⟩
      · simpa [he] using hown
      · rwa [List.append_assoc, List.singleton_append] at hstop

/-- Once a dispatcher is cancelled, each of its own events changes nothing or leaves less to
do, and while it has not stopped one of them does: so it stops, whatever the endpoint answers,
after at most that many of them; and whatever happens in between, nothing more is leased for
its stream. -/
theorem push_stops (args : DispatcherArgs) (es : List Event)
    (hc : (reach args es).cancelled = true) :
    (∀ e : Event, e.isOwn = true → reach args (es ++ [e]) = reach args es ∨
      (reach args (es ++ [e])).work < (reach args es).work) ∧
    (∃ es' : List Event, (∀ e ∈ es', e.isOwn = true) ∧ es'.length ≤ (reach args es).work ∧
      (reach args (es ++ es')).loop = .stopped) ∧
    ∀ id, (reach args es).streamId = some id → ∀ es',
      leasedFor id (history (calls args (es ++ es'))) = leasedFor id (history (calls args es)) := by
  refine ⟨fun e he => ?_, exists_stopping _ hc le_rfl, fun id hid es' => ?_⟩
  · rw [reach_concat]
    exact serve_work hc he
  · exact (cancelled_run hc hid es').2.2

theorem push_stops_one : (reach onePushArgs onePush).deliveries.length = 1 ∧
    ∃ es', (reach onePushArgs (onePush ++ es')).loop = .stopped := by
  have hlen : (reach onePushArgs onePush).deliveries.length = 1 := by decide +kernel
  have hc : (reach onePushArgs onePush).cancelled = true := by decide +kernel
  obtain ⟨_, ⟨es', _, _, hstop⟩, _⟩ := push_stops onePushArgs onePush hc
  exact ⟨hlen, es', hstop⟩

end Stopping

end Dispatcher

end OpenPubusb
