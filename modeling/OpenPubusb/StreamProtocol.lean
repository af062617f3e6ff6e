import OpenPubusb.StreamTasks

/-! What holds of a `StreamingPull` connection in every interleaving of its two tasks, its
client, the other connections and the other callers of the service. -/

namespace OpenPubusb

open Hoare

/-- The call acknowledges or postpones on the stream. -/
def AcksOn (streamId : Nat) : Op → Prop
  | .streamAcknowledge id _ _ => id = streamId
  | .streamModifyAckDeadline id _ _ _ => id = streamId
  | _ => False

def RecvTask.calls : RecvTask → List Op
  | .opening calls => calls
  | .applying calls => calls
  | _ => []

def RecvTask.isOpening : RecvTask → Bool
  | .opening _ => true
  | _ => false

def RecvTask.isEnded : RecvTask → Bool
  | .ended => true
  | _ => false

def SendTask.isEnded : SendTask → Bool
  | .ended => true
  | _ => false

/-- The loop of `send_loop` is over. -/
def SendTask.isLast : SendTask → Bool
  | .closing => true
  | .ended => true
  | _ => false

def SendTask.pending : SendTask → List Delivered
  | .sending ds => ds
  | _ => []

def isError {α : Type} : Except Status α → Bool
  | .error _ => true
  | .ok _ => false

def StreamingPullResponse.messages : StreamingPullResponse → List PulledMessage
  | .subscriptionProperties _ _ => []
  | .receivedMessages ms => ms

namespace Conn

/-- Everything put into the channel so far. -/
def items (c : Conn) : List (Except Status StreamingPullResponse) := c.received ++ c.channel

def responses (c : Conn) : List StreamingPullResponse := c.items.filterMap Except.toOption

def properties (c : Conn) : StreamingPullResponse :=
  .subscriptionProperties c.exactlyOnceDeliveryEnabled c.messageOrderingEnabled

def withItem (c : Conn) (item : Except Status StreamingPullResponse) : Conn :=
  { c with channel := c.channel ++ [item] }

@[simp] theorem items_withItem (c : Conn) (item : Except Status StreamingPullResponse) :
    (c.withItem item).items = c.items ++ [item] := by
  simp [items, withItem]

/-- A move of one connection that makes no call. -/
inductive Goes (streamId : Nat) (c : Conn) : Conn → Prop where
  | spawned (hr : c.recv = .opening []) : Goes streamId c { c with recv := .reading, send := .first }
  | turned (r : RecvTask) (hr : c.recv.isOpening = false) (hlive : c.recv.isEnded = false)
      (hr' : r.isOpening = false) (hend : r.isEnded = false) (hcalls : ∀ op ∈ r.calls, AcksOn streamId op) :
      Goes streamId c { c with recv := r }
  | finished (hr : c.recv.isOpening = false) (hlive : c.recv.isEnded = false) :
      Goes streamId c c.recvEnds
  | failed (status : Status) (hr : c.recv = .failing status)
      (hroom : c.channel.length < responseChannelCapacity) :
      Goes streamId c (c.withItem (.error status)).recvEnds
  | greeted (hs : c.send = .first) (hroom : c.channel.length < responseChannelCapacity) :
      Goes streamId c (c.withItem (.ok c.properties)).sendSelects
  | sent (ds : List Delivered) (hs : c.send = .sending ds)
      (hroom : c.channel.length < responseChannelCapacity) :
      Goes streamId c (c.withItem (.ok (.receivedMessages (ds.map (.ofDelivered true))))).sendSelects
  | aborted (status : Status) (hs : c.send = .aborting status)
      (hroom : c.channel.length < responseChannelCapacity) :
      Goes streamId c (c.withItem (.error status)).sendCloses
  | gone (hs : c.send ≠ .unspawned) (hlast : c.send.isLast = false)
      (hgone : c.dropped = true ∨ c.send = .selecting) : Goes streamId c c.sendCloses
  | aborts (status : Status) (hs : c.send = .selecting) :
      Goes streamId c { c with send := .aborting status }
  | reads (item : Except Status StreamingPullResponse) (channel : List _)
      (hc : c.channel = item :: channel) :
      Goes streamId c { c with channel := channel, received := c.received ++ [item] }
  | drops : Goes streamId c { c with dropped := true }

/-- The connection after a call of `apply_request` has returned. -/
def answered (c : Conn) (calls : List Op) (reply : Reply) : Conn :=
  match c.recv, reply with
  | .opening _, .failed e =>
    { c with recv := .ended, send := .closing, rejected := some (toStatus e) }
  | .opening _, _ => { c with recv := .opening calls }
  | _, .failed e => { c with recv := .failing (toStatus e) }
  | _, _ => { c with recv := .applying calls }

/-- The connection after `lease_for_stream` has returned. -/
def leasedTo (c : Conn) : Reply → Conn
  | .delivered _ (d :: ds) => { c with send := .sending (d :: ds) }
  | .failed e => { c with send := .aborting (toStatus e) }
  | _ => c

section Moves

variable {c c' : Conn} {sid : Nat}

theorem push_ne_call {item : Except Status StreamingPullResponse} {sent gone : Conn → Conn}
    {op : Op} {next : Reply → Conn} : c.push item sent gone ≠ .call op next := by
  unfold push
  split_ifs <;> simp

theorem push_goto {item : Except Status StreamingPullResponse} {sent gone : Conn → Conn}
    (h : c.push item sent gone = .goto c') : c.dropped = true ∧ c' = gone c ∨
      c.channel.length < responseChannelCapacity ∧ c' = sent (c.withItem item) := by
  unfold push at h
  split_ifs at h with hd hroom
  · exact Or.inl ⟨hd, (Move.goto.inj h).symm⟩
  · exact Or.inr ⟨hroom, (Move.goto.inj h).symm⟩

theorem acksOn_applyRequest {subId : Nat} {req : StreamingPullRequest} {calls : List Op}
    (h : applyRequest sid subId req = .ok calls) : ∀ op ∈ calls, AcksOn sid op := by
  unfold applyRequest at h
  split_ifs at h with hlen hnil
  all_goals
    rw [← Except.ok.inj h]
    intro op hop
    simp only [List.mem_append, List.mem_map, List.mem_singleton, List.not_mem_nil, false_or] at hop
  · obtain ⟨p, _, rfl⟩ := hop
    rfl
  · rcases hop with rfl | ⟨p, _, rfl⟩ <;> rfl

theorem recvMove_goto {incoming : Option Incoming}
    (h : c.recvMove sid incoming = .goto c') : Goes sid c c' := by
  unfold recvMove at h
  split at h
  · next hr => exact Move.goto.inj h ▸ .spawned hr
  · cases h
  · next hr =>
    have hop : c.recv.isOpening = false := by rw [hr]; rfl
    have hlive : c.recv.isEnded = false := by rw [hr]; rfl
    split at h
    · split_ifs at h
      exact Move.goto.inj h ▸ .finished hop hlive
    · split at h
      · exact Move.goto.inj h ▸ .turned _ hop hlive rfl rfl (by simp [RecvTask.calls])
      · next hcalls =>
        exact Move.goto.inj h ▸ .turned _ hop hlive rfl rfl (acksOn_applyRequest hcalls)
    · exact Move.goto.inj h ▸ .finished hop hlive
  · next hr =>
    have hop : c.recv.isOpening = false := by rw [hr]; rfl
    have hlive : c.recv.isEnded = false := by rw [hr]; rfl
    exact Move.goto.inj h ▸ .turned _ hop hlive rfl rfl (by simp [RecvTask.calls])
  · cases h
  · next status hr =>
    rcases push_goto h with ⟨_, rfl⟩ | ⟨hroom, rfl⟩
    · exact .finished (by rw [hr]; rfl) (by rw [hr]; rfl)
    · exact .failed status hr hroom
  · cases h

theorem recvMove_call {incoming : Option Incoming} {op : Op} {next : Reply → Conn}
    (h : c.recvMove sid incoming = .call op next) :
    ∃ calls, c.recv.calls = op :: calls ∧ next = c.answered calls := by
  unfold recvMove at h
  split at h
  · cases h
  · next calls hr =>
    obtain ⟨rfl, rfl⟩ := Move.call.inj h
    refine ⟨calls, by rw [hr]; rfl, funext fun reply => ?_⟩
    simp only [answered, hr]
    cases reply <;> rfl
  · split at h
    · split_ifs at h
    · split at h <;> cases h
    · cases h
  · cases h
  · next calls hr =>
    obtain ⟨rfl, rfl⟩ := Move.call.inj h
    refine ⟨calls, by rw [hr]; rfl, funext fun reply => ?_⟩
    simp only [answered, hr]
    cases reply <;> rfl
  · exact absurd h push_ne_call
  · cases h

theorem sendMove_goto {shutdown : Bool} {branch : Branch}
    (h : c.sendMove sid shutdown branch = .goto c') : Goes sid c c' := by
  unfold sendMove at h
  split at h
  · cases h
  · next hs =>
    rcases push_goto h with ⟨hd, rfl⟩ | ⟨hroom, rfl⟩
    · exact .gone (by simp [hs]) (by rw [hs]; rfl) (Or.inl hd)
    · exact .greeted hs hroom
  · next hs =>
    split at h
    · split_ifs at h
      exact Move.goto.inj h ▸ .gone (by simp [hs]) (by rw [hs]; rfl) (Or.inr hs)
    · split_ifs at h
      exact Move.goto.inj h ▸ .aborts _ hs
    · exact Move.goto.inj h ▸ .aborts _ hs
    · cases h
  · next ds hs =>
    rcases push_goto h with ⟨hd, rfl⟩ | ⟨hroom, rfl⟩
    · exact .gone (by simp [hs]) (by rw [hs]; rfl) (Or.inl hd)
    · exact .sent ds hs hroom
  · next status hs =>
    rcases push_goto h with ⟨hd, rfl⟩ | ⟨hroom, rfl⟩
    · exact .gone (by simp [hs]) (by rw [hs]; rfl) (Or.inl hd)
    · exact .aborted status hs hroom
  · cases h
  · cases h

theorem sendMove_call {shutdown : Bool} {branch : Branch} {op : Op} {next : Reply → Conn}
    (h : c.sendMove sid shutdown branch = .call op next) :
    c.send = .selecting ∧ op = .leaseForStream sid ∧ next = c.leasedTo ∨
      c.send = .closing ∧ op = .closeStream sid ∧ next = fun _ => { c with send := .ended } := by
  unfold sendMove at h
  split at h
  · cases h
  · exact absurd h push_ne_call
  · next hs =>
    split at h
    · split_ifs at h
    · split_ifs at h
    · cases h
    · obtain ⟨rfl, rfl⟩ := Move.call.inj h
      refine Or.inl ⟨hs, rfl, funext fun reply => ?_⟩
      unfold leasedTo
      rcases reply with _ | _ | ⟨_, _ | _⟩ | _ | _ <;> rfl
  · exact absurd h push_ne_call
  · exact absurd h push_ne_call
  · next hs =>
    obtain ⟨rfl, rfl⟩ := Move.call.inj h
    exact Or.inr ⟨hs, rfl, rfl⟩
  · cases h

theorem goes_read (c : Conn) : c.read = c ∨ Goes sid c c.read := by
  unfold read
  split
  · exact Or.inl rfl
  · next item channel hc =>
    split_ifs
    · exact Or.inl rfl
    · exact Or.inr (.reads item channel hc)

end Moves

end Conn

section Steps

variable {srv : Server} {sid : Nat} {c' : Conn}

/-- How the connection of a stream comes to be `c'` in a step that makes the call `o`. -/
inductive ConnStep (srv : Server) (o : Option Input) (sid : Nat) (c' : Conn) : Prop where
  | kept (hc : srv.conns.get sid = some c')
      (ho : ∀ i ∈ o, i.op ≠ .restart ∧ streamNamed i.op ≠ some sid)
  | opened (i : Input) (sub : SubscriptionRecord) (req : StreamingPullRequest) (ho : o = some i)
      (hop : firstCall req = .ok i.op) (hr : (step srv.engine i).1 = .opened sid)
      (hsub : SubscriptionStore.get srv.engine.kv req.subscription = .ok sub)
      (hc' : c' = .ofFirst sid sub req)
  | went (c : Conn) (hc : srv.conns.get sid = some c) (ho : o = none) (h : Conn.Goes sid c c')
  | answered (c : Conn) (op : Op) (calls : List Op) (nowMs : Int)
      (hc : srv.conns.get sid = some c) (hcalls : c.recv.calls = op :: calls)
      (ho : o = some ⟨nowMs, op⟩)
      (hc' : c' = c.answered calls (step srv.engine ⟨nowMs, op⟩).1)
  | leased (c : Conn) (nowMs : Int) (hc : srv.conns.get sid = some c) (hs : c.send = .selecting)
      (ho : o = some ⟨nowMs, .leaseForStream sid⟩)
      (hc' : c' = c.leasedTo (step srv.engine ⟨nowMs, .leaseForStream sid⟩).1)
  | closed (c : Conn) (nowMs : Int) (hc : srv.conns.get sid = some c) (hs : c.send = .closing)
      (ho : o = some ⟨nowMs, .closeStream sid⟩) (hc' : c' = { c with send := .ended })

theorem streamNamed_acksOn {op : Op} (h : AcksOn sid op) : streamNamed op = some sid := by
  cases op with
  | streamAcknowledge id _ _ => exact congrArg some h
  | streamModifyAckDeadline id _ _ _ => exact congrArg some h
  | _ => cases h

theorem ne_restart_of_named {op : Op} (h : streamNamed op ≠ none) : op ≠ .restart := by
  rintro rfl
  exact h rfl

theorem connStep_other {o : Option Input} {id : Nat} {c : Conn} (hne : sid ≠ id)
    (ho : ∀ i ∈ o, streamNamed i.op = some id)
    (h : (srv.conns.insert id c).get sid = some c') : ConnStep srv o sid c' := by
  rw [SortedMap.get_insert_ne _ _ hne] at h
  refine .kept h fun i hi => ⟨ne_restart_of_named (by simp [ho i hi]), ?_⟩
  rw [ho i hi, ne_eq, Option.some.injEq]
  exact Ne.symm hne

theorem connStep_silent {id : Nat} {c c₁ : Conn} (hc : srv.conns.get id = some c)
    (hgo : c₁ = c ∨ Conn.Goes id c c₁) (h : (srv.conns.insert id c₁).get sid = some c') :
    ConnStep srv none sid c' := by
  by_cases hid : sid = id
  · subst hid
    rw [SortedMap.get_insert_self, Option.some.injEq] at h
    subst h
    rcases hgo with rfl | hgo
    · exact .kept hc (by simp)
    · exact .went c hc rfl hgo
  · exact connStep_other hid (by simp) h

theorem callable_keeps {i : Input} (h : srv.callable i = true) : i.op ≠ .restart ∧
    ∀ id, streamNamed i.op = some id → id ≤ srv.engine.streams.nextId ∧ srv.conns.get id = none := by
  unfold Server.callable at h
  split at h
  · cases h
  · next hop =>
    refine ⟨hop, fun id hid => ?_⟩
    simpa [hid] using h

theorem firstCall_named {req : StreamingPullRequest} {op : Op} (h : firstCall req = .ok op) :
    streamNamed op = none ∧ op ≠ .restart := by
  unfold firstCall at h
  split_ifs at h
  rw [← Except.ok.inj h]
  exact ⟨rfl, by simp⟩

theorem connStep_accept {nowMs : Int} {req : StreamingPullRequest}
    (h : (srv.accept nowMs req).2.conns.get sid = some c') :
    ConnStep srv (srv.accept nowMs req).1 sid c' := by
  unfold Server.accept at h ⊢
  split at h
  · exact .kept h (by simp)
  · next op hop =>
    dsimp only at h ⊢
    have hkept : srv.conns.get sid = some c' → ConnStep srv (some ⟨nowMs, op⟩) sid c' := by
      intro hc
      refine .kept hc fun i hi => ?_
      rw [← Option.some.inj hi, (firstCall_named hop).1]
      exact ⟨(firstCall_named hop).2, by simp⟩
    split at h
    · next streamId sub hr hsub =>
      simp only [Server.after, SortedMap.get_insert] at h
      split_ifs at h with hid
      · subst hid
        exact .opened ⟨nowMs, op⟩ sub req rfl hop hr hsub (Option.some.inj h).symm
      · exact hkept h
    · exact hkept h

theorem connStep_run {id : Nat} {c : Conn} {nowMs : Int} {move : Move}
    (hc : srv.conns.get id = some c) (hgo : ∀ c₁, move = .goto c₁ → Conn.Goes id c c₁)
    (hcall : ∀ op next, move = .call op next → streamNamed op = some id ∧
      ConnStep srv (some ⟨nowMs, op⟩) id (next (step srv.engine ⟨nowMs, op⟩).1))
    (h : (srv.run id nowMs move).2.conns.get sid = some c') :
    ConnStep srv (srv.run id nowMs move).1 sid c' := by
  cases move with
  | wait => exact .kept h (by simp [Server.run])
  | goto c₁ => exact connStep_silent hc (Or.inr (hgo c₁ rfl)) h
  | call op next =>
    obtain ⟨hnamed, hstep⟩ := hcall op next rfl
    by_cases hid : sid = id
    · subst hid
      simp only [Server.run, Server.after, SortedMap.get_insert_self, Option.some.injEq] at h
      exact h ▸ hstep
    · refine connStep_other hid (fun i hi => ?_) h
      rw [← Option.some.inj hi]
      exact hnamed

theorem connStep {e : Server.Event}
    (hacks : ∀ id c, srv.conns.get id = some c → ∀ op ∈ c.recv.calls, AcksOn id op)
    (h : (srv.serve e).2.conns.get sid = some c') : ConnStep srv (srv.serve e).1 sid c' := by
  unfold Server.serve at h ⊢
  cases e with
  | call i =>
    dsimp only at h ⊢
    split_ifs at h ⊢ with hi
    · obtain ⟨hop, hnamed⟩ := callable_keeps hi
      refine .kept h fun j hj => ?_
      rw [← Option.some.inj hj]
      refine ⟨hop, fun hid => ?_⟩
      have hnone := (hnamed sid hid).2
      have hsome : srv.conns.get sid = some c' := h
      rw [hsome] at hnone
      cases hnone
    · exact .kept h (by simp)
  | streamingPull nowMs req => exact connStep_accept h
  | recv id nowMs incoming =>
    dsimp only at h ⊢
    cases hc : srv.conns.get id with
    | none =>
      simp only [hc] at h ⊢
      exact .kept h (by simp)
    | some c =>
      simp only [hc] at h ⊢
      refine connStep_run hc (fun _ => Conn.recvMove_goto) (fun op next hmove => ?_) h
      obtain ⟨calls, hcalls, rfl⟩ := Conn.recvMove_call hmove
      exact ⟨streamNamed_acksOn (hacks id c hc op (by simp [hcalls])),
        .answered c op calls nowMs hc hcalls rfl rfl⟩
  | send id nowMs branch =>
    dsimp only at h ⊢
    cases hc : srv.conns.get id with
    | none =>
      simp only [hc] at h ⊢
      exact .kept h (by simp)
    | some c =>
      simp only [hc] at h ⊢
      refine connStep_run hc (fun _ => Conn.sendMove_goto) (fun op next hmove => ?_) h
      rcases Conn.sendMove_call hmove with ⟨hs, rfl, rfl⟩ | ⟨hs, rfl, rfl⟩
      · exact ⟨rfl, .leased c nowMs hc hs rfl rfl⟩
      · exact ⟨rfl, .closed c nowMs hc hs rfl rfl⟩
  | read id =>
    dsimp only at h ⊢
    cases hc : srv.conns.get id with
    | none =>
      simp only [hc] at h ⊢
      exact .kept h (by simp)
    | some c =>
      simp only [hc] at h ⊢
      exact connStep_silent hc c.goes_read h
  | drop id =>
    dsimp only at h ⊢
    cases hc : srv.conns.get id with
    | none =>
      simp only [hc] at h ⊢
      exact .kept h (by simp)
    | some c =>
      simp only [hc] at h ⊢
      exact connStep_silent hc (Or.inr .drops) h
  | shutdown => exact .kept h (by simp)

end Steps

namespace Conn

/-- The first response is the properties, the others carry messages. -/
def Greeted (c : Conn) : Prop :=
  ∃ batches : List (List PulledMessage), [] ∉ batches ∧
    c.responses = c.properties :: batches.map .receivedMessages

/-- What holds of a connection by itself. -/
structure Shaped (sid : Nat) (c : Conn) : Prop where
  acks : ∀ op ∈ c.recv.calls, AcksOn sid op
  unspawned : c.recv.isOpening = true ↔ c.send = .unspawned
  capacity : c.channel.length ≤ responseChannelCapacity
  errors : c.items.countP isError ≤
    (if c.recv.isEnded then 1 else 0) + (if c.send.isLast then 1 else 0)
  early : c.send = .unspawned ∨ c.send = .first → c.responses = []
  greeted : c.responses = [] ∨ c.Greeted
  late : c.send ≠ .unspawned → c.send ≠ .first → c.send.isLast = false → c.Greeted
  pending : ∀ ds, c.send = .sending ds → ds ≠ []
  stops : c.recv.isEnded = true → c.cancelled = true ∨ c.send.isLast = true
  rejected : c.rejected ≠ none → c.items = [] ∧ c.send.isLast = true ∧ c.recv.isEnded = true

variable {sid : Nat} {c c' : Conn}

theorem responses_withItem_ok (c : Conn) (r : StreamingPullResponse) :
    (c.withItem (.ok r)).responses = c.responses ++ [r] := by
  simp [responses, Except.toOption]

theorem responses_withItem_error (c : Conn) (status : Status) :
    (c.withItem (.error status)).responses = c.responses := by
  simp [responses, Except.toOption]

theorem shaped_ofFirst (sub : SubscriptionRecord) (req : StreamingPullRequest) :
    Shaped sid (ofFirst sid sub req) := by
  unfold ofFirst
  dsimp only
  split
  · constructor <;> simp [RecvTask.calls, RecvTask.isOpening, RecvTask.isEnded, SendTask.isLast,
      items, responses]
  · next calls hcalls =>
    have hacks := acksOn_applyRequest hcalls
    constructor <;> simp_all [RecvTask.calls, RecvTask.isOpening, RecvTask.isEnded,
      SendTask.isLast, items, responses]

theorem Shaped.withRecv (h : Shaped sid c) {r : RecvTask}
    (hr : r.isOpening = c.recv.isOpening) (hend : r.isEnded = false)
    (hlive : c.recv.isEnded = false) (hcalls : ∀ op ∈ r.calls, AcksOn sid op) :
    Shaped sid { c with recv := r } where
  acks := hcalls
  unspawned := by
    dsimp only
    rw [hr]
    exact h.unspawned
  capacity := h.capacity
  errors := by
    have herr := h.errors
    simp only [hend, hlive] at herr ⊢
    exact herr
  early := h.early
  greeted := h.greeted
  late := h.late
  pending := h.pending
  stops hr := absurd hr (by simp [hend])
  rejected hrej := by
    have hrec := (h.rejected hrej).2.2
    simp [hlive] at hrec

theorem Shaped.withSend (h : Shaped sid c) {s' : SendTask} (hs : c.send ≠ .unspawned)
    (hlast : c.send.isLast = false) (hs' : s' ≠ .unspawned) (hfirst : s' ≠ .first)
    (hgreeted : c.responses = [] ∨ c.Greeted) (hlate : s'.isLast = false → c.Greeted)
    (hpending : ∀ ds, s' = .sending ds → ds ≠ []) : Shaped sid { c with send := s' } where
  acks := h.acks
  unspawned := by
    refine ⟨fun hr => absurd (h.unspawned.mp hr) hs, fun hu => absurd hu hs'⟩
  capacity := h.capacity
  errors := by
    refine h.errors.trans (Nat.add_le_add_left ?_ _)
    rw [hlast]
    exact Nat.zero_le _
  early hu := by
    rcases hu with hu | hu
    · exact absurd hu hs'
    · exact absurd hu hfirst
  greeted := hgreeted
  late _ _ := hlate
  pending := hpending
  stops hr := by
    rcases h.stops hr with hc | hc
    · exact Or.inl hc
    · rw [hlast] at hc
      cases hc
  rejected hrej := by
    have hc := (h.rejected hrej).2.1
    rw [hlast] at hc
    cases hc

theorem Shaped.recvEnds (h : Shaped sid c) (hr : c.recv.isOpening = false)
    (hlive : c.recv.isEnded = false) {c₁ : Conn}
    (hc₁ : c₁ = c ∨ c.channel.length < responseChannelCapacity ∧
      ∃ status, c₁ = c.withItem (.error status)) : Shaped sid c₁.recvEnds := by
  have hrec : c₁.recv = c.recv ∧ c₁.send = c.send ∧ c₁.rejected = c.rejected := by
    rcases hc₁ with rfl | ⟨_, status, rfl⟩ <;> exact ⟨rfl, rfl, rfl⟩
  have hresp : c₁.responses = c.responses ∧ c₁.properties = c.properties := by
    rcases hc₁ with rfl | ⟨_, status, rfl⟩
    · exact ⟨rfl, rfl⟩
    · exact ⟨responses_withItem_error c status, rfl⟩
  have hgreeted : c.Greeted → c₁.recvEnds.Greeted := by
    rintro ⟨batches, hne, hb⟩
    exact ⟨batches, hne, hresp.1.trans (hb.trans (by rw [← hresp.2]; rfl))⟩
  refine
    { acks := by simp [Conn.recvEnds, RecvTask.calls]
      unspawned := ?_
      capacity := ?_
      errors := ?_
      early := fun hs => hresp.1.trans (h.early (hrec.2.1 ▸ hs))
      greeted := h.greeted.imp hresp.1.trans hgreeted
      late := fun hu hf hl => hgreeted (h.late (hrec.2.1 ▸ hu) (hrec.2.1 ▸ hf) (hrec.2.1 ▸ hl))
      pending := fun ds hs => h.pending ds (hrec.2.1 ▸ hs)
      stops := fun _ => Or.inl rfl
      rejected := ?_ }
  · refine ⟨fun hopen => (by cases hopen), fun hu => ?_⟩
    have hopen := h.unspawned.mpr (hrec.2.1.symm.trans hu)
    rw [hr] at hopen
    cases hopen
  · rcases hc₁ with rfl | ⟨hroom, status, rfl⟩
    · exact h.capacity
    · simpa [Conn.recvEnds, withItem] using hroom
  · have herr := h.errors
    rw [hlive] at herr
    rcases hc₁ with rfl | ⟨_, status, rfl⟩
    · exact herr.trans (Nat.add_le_add_right (Nat.zero_le _) _)
    · have hitems : (c.withItem (.error status)).recvEnds.items = c.items ++ [.error status] :=
        items_withItem c _
      rw [hitems, List.countP_append, Nat.add_comm]
      exact Nat.add_le_add_left (herr.trans_eq (Nat.zero_add _)) 1
  · intro hrej
    have hend := (h.rejected (hrec.2.2 ▸ hrej)).2.2
    rw [hlive] at hend
    cases hend

theorem Greeted.withItem (h : c.Greeted) {ms : List PulledMessage} (hne : ms ≠ []) :
    (c.withItem (.ok (.receivedMessages ms))).Greeted := by
  obtain ⟨batches, hnil, hb⟩ := h
  refine ⟨batches ++ [ms], ?_, ?_⟩
  · simp [hnil, hne.symm]
  · rw [responses_withItem_ok, hb]
    simp [properties, Conn.withItem]

theorem countP_withItem (c : Conn) (item : Except Status StreamingPullResponse) :
    (c.withItem item).items.countP isError =
      c.items.countP isError + if isError item then 1 else 0 := by
  rw [items_withItem, List.countP_append, List.countP_singleton]

theorem Shaped.sends (h : Shaped sid c) {item : Except Status StreamingPullResponse}
    {s' : SendTask} (hroom : c.channel.length < responseChannelCapacity)
    (hs : c.send ≠ .unspawned) (hlast : c.send.isLast = false) (hs' : s' = .selecting ∨ s' = .closing)
    (hitem : isError item = s'.isLast) (hresp : (c.withItem item).responses = [] ∨
      (c.withItem item).Greeted) (hlate : s'.isLast = false → (c.withItem item).Greeted) :
    Shaped sid { c.withItem item with send := s' } where
  acks := h.acks
  unspawned := by
    refine ⟨fun hr => absurd (h.unspawned.mp hr) hs, fun hu => ?_⟩
    rcases hs' with rfl | rfl <;> cases hu
  capacity := by simpa [Conn.withItem] using hroom
  errors := by
    have herr := h.errors
    have hcount := countP_withItem c item
    rw [hitem] at hcount
    have hitems : Conn.items { c.withItem item with send := s' } = (c.withItem item).items := rfl
    rw [hitems, hcount]
    simp only [hlast, Bool.false_eq_true, if_false, Nat.add_zero] at herr
    exact Nat.add_le_add_right herr _
  early hu := by rcases hs' with rfl | rfl <;> simp at hu
  greeted := hresp
  late _ _ := hlate
  pending ds hds := by rcases hs' with rfl | rfl <;> cases hds
  stops hr := by
    rcases h.stops hr with hc | hc
    · exact Or.inl hc
    · rw [hlast] at hc
      cases hc
  rejected hrej := by
    have hc := (h.rejected hrej).2.1
    rw [hlast] at hc
    cases hc

theorem Shaped.goes (h : Shaped sid c) (hgo : Goes sid c c') : Shaped sid c' := by
  cases hgo with
  | spawned hr =>
    have hun : c.send = .unspawned := h.unspawned.mp (by rw [hr]; rfl)
    have hresp := h.early (Or.inl hun)
    have hempty : c.rejected = none := by
      by_contra hrej
      have hlast := (h.rejected hrej).2.1
      rw [hun] at hlast
      cases hlast
    have herr := h.errors
    rw [hun, hr] at herr
    exact
      { acks := by simp [RecvTask.calls]
        unspawned := by simp [RecvTask.isOpening]
        capacity := h.capacity
        errors := herr
        early := fun _ => hresp
        greeted := Or.inl hresp
        late := fun _ hne => absurd rfl hne
        pending := by simp
        stops := by simp [RecvTask.isEnded]
        rejected := fun hrej => absurd hempty hrej }
  | turned r hr hlive hr' hend hcalls => exact h.withRecv (hr'.trans hr.symm) hend hlive hcalls
  | finished hr hlive => exact h.recvEnds hr hlive (Or.inl rfl)
  | failed status hr hroom =>
    exact h.recvEnds (by rw [hr]; rfl) (by rw [hr]; rfl) (Or.inr ⟨hroom, status, rfl⟩)
  | greeted hs hroom =>
    have hgreeted : (c.withItem (.ok c.properties)).Greeted := by
      refine ⟨[], List.not_mem_nil, ?_⟩
      rw [responses_withItem_ok, h.early (Or.inr hs)]
      rfl
    exact h.sends hroom (by simp [hs]) (by rw [hs]; rfl) (Or.inl rfl) rfl (Or.inr hgreeted)
      fun _ => hgreeted
  | sent ds hs hroom =>
    have hbatch : ds.map (PulledMessage.ofDelivered true) ≠ [] := by
      simpa using h.pending ds hs
    have hgreeted := (h.late (by simp [hs]) (by simp [hs]) (by rw [hs]; rfl)).withItem hbatch
    exact h.sends hroom (by simp [hs]) (by rw [hs]; rfl) (Or.inl rfl) rfl (Or.inr hgreeted)
      fun _ => hgreeted
  | aborted status hs hroom =>
    have hgreeted : (c.withItem (.error status)).Greeted := by
      obtain ⟨batches, hnil, hb⟩ := h.late (by simp [hs]) (by simp [hs]) (by rw [hs]; rfl)
      exact ⟨batches, hnil, (responses_withItem_error c status).trans hb⟩
    exact h.sends hroom (by simp [hs]) (by rw [hs]; rfl) (Or.inr rfl) rfl (Or.inr hgreeted)
      fun _ => hgreeted
  | gone hs hlast hgone =>
    exact h.withSend hs hlast (by simp) (by simp) h.greeted (by simp [SendTask.isLast]) (by simp)
  | aborts status hs =>
    have hgreeted := h.late (by simp [hs]) (by simp [hs]) (by rw [hs]; rfl)
    exact h.withSend (by simp [hs]) (by rw [hs]; rfl) (by simp) (by simp) h.greeted
      (fun _ => hgreeted) (by simp)
  | reads item channel hc =>
    have hitems : Conn.items { c with channel := channel, received := c.received ++ [item] } =
        c.items := by simp [items, hc]
    have hresp : Conn.responses { c with channel := channel, received := c.received ++ [item] } =
        c.responses := congrArg (List.filterMap Except.toOption) hitems
    have hcap := h.capacity
    rw [hc, List.length_cons] at hcap
    exact
      { acks := h.acks
        unspawned := h.unspawned
        capacity := Nat.le_of_succ_le hcap
        errors := hitems ▸ h.errors
        early := fun hs => hresp.trans (h.early hs)
        greeted := h.greeted.imp hresp.trans fun hg => hg.imp fun b hb => ⟨hb.1, hresp.trans hb.2⟩
        late := fun hu hf hl =>
          (h.late hu hf hl).imp fun b hb => ⟨hb.1, hresp.trans hb.2⟩
        pending := h.pending
        stops := h.stops
        rejected := fun hrej => (h.rejected hrej).imp hitems.trans id }
  | drops => exact ⟨h.acks, h.unspawned, h.capacity, h.errors, h.early, h.greeted, h.late,
      h.pending, h.stops, h.rejected⟩

theorem Shaped.items_eq_nil (h : Shaped sid c) (hr : c.recv.isEnded = false)
    (hs : c.send = .unspawned) : c.items = [] := by
  have herr := h.errors
  have hresp := h.early (Or.inl hs)
  rw [hr, hs] at herr
  have hnone := List.countP_eq_zero.mp (Nat.le_zero.mp herr)
  cases hi : c.items with
  | nil => rfl
  | cons item items =>
    rw [hi] at hnone
    cases item with
    | error status => exact absurd rfl (hnone _ List.mem_cons_self)
    | ok r => simp [responses, hi, Except.toOption] at hresp

theorem calls_cases {r : RecvTask} {op : Op} {calls : List Op} (h : r.calls = op :: calls) :
    r = .opening (op :: calls) ∨ r = .applying (op :: calls) := by
  cases r with
  | opening cs => exact Or.inl (congrArg _ h)
  | applying cs => exact Or.inr (congrArg _ h)
  | _ => cases h

theorem Shaped.refuses (h : Shaped sid c) (hopen : c.recv.isOpening = true) (status : Status)
    (hitems : c.items = []) :
    Shaped sid { c with recv := .ended, send := .closing, rejected := some status } where
  acks := by simp [RecvTask.calls]
  unspawned := by simp [RecvTask.isOpening]
  capacity := h.capacity
  errors := by
    have hi : Conn.items { c with recv := .ended, send := .closing, rejected := some status } =
        c.items := rfl
    rw [hi, hitems]
    exact Nat.zero_le _
  early hu := by simp at hu
  greeted := Or.inl (h.early (Or.inl (h.unspawned.mp hopen)))
  late _ _ hl := by cases hl
  pending _ hds := by cases hds
  stops _ := Or.inr rfl
  rejected _ := ⟨hitems, rfl, rfl⟩

theorem Shaped.answered (h : Shaped sid c) {op : Op} {calls : List Op}
    (hcalls : c.recv.calls = op :: calls) (reply : Reply) : Shaped sid (c.answered calls reply) := by
  have hacks : ∀ op ∈ calls, AcksOn sid op := by
    intro op hop
    exact h.acks op (hcalls ▸ List.mem_cons_of_mem _ hop)
  rcases calls_cases hcalls with hr | hr
  · have hlive : c.recv.isEnded = false := by rw [hr]; rfl
    have hopen : c.recv.isOpening = true := by rw [hr]; rfl
    have hitems := h.items_eq_nil hlive (h.unspawned.mp hopen)
    unfold Conn.answered
    rw [hr]
    cases reply with
    | failed e => exact h.refuses hopen (toStatus e) hitems
    | _ => exact h.withRecv hopen.symm rfl hlive hacks
  · have hlive : c.recv.isEnded = false := by rw [hr]; rfl
    have hopen : c.recv.isOpening = false := by rw [hr]; rfl
    unfold Conn.answered
    rw [hr]
    cases reply with
    | failed e => exact h.withRecv hopen.symm rfl hlive (by simp [RecvTask.calls])
    | _ => exact h.withRecv hopen.symm rfl hlive hacks

theorem Shaped.leasedTo (h : Shaped sid c) (hs : c.send = .selecting) (reply : Reply) :
    Shaped sid (c.leasedTo reply) := by
  have hgreeted := h.late (by simp [hs]) (by simp [hs]) (by rw [hs]; rfl)
  have hsend : ∀ s' : SendTask, s' ≠ .unspawned → s' ≠ .first → (∀ ds, s' = .sending ds → ds ≠ []) →
      Shaped sid { c with send := s' } := by
    intro s' hun hfirst hpending
    exact h.withSend (by simp [hs]) (by rw [hs]; rfl) hun hfirst h.greeted (fun _ => hgreeted)
      hpending
  unfold Conn.leasedTo
  split
  · refine hsend _ (by simp) (by simp) fun ds hds => ?_
    rw [← SendTask.sending.inj hds]
    exact List.cons_ne_nil _ _
  · exact hsend _ (by simp) (by simp) (by simp)
  · exact h

theorem Shaped.closed (h : Shaped sid c) (hs : c.send = .closing) :
    Shaped sid { c with send := .ended } where
  acks := h.acks
  unspawned := by
    refine ⟨fun hr => ?_, fun hu => (by cases hu)⟩
    have hu := h.unspawned.mp hr
    rw [hs] at hu
    cases hu
  capacity := h.capacity
  errors := by
    have herr := h.errors
    rw [hs] at herr
    exact herr
  early hu := by simp at hu
  greeted := h.greeted
  late _ _ hl := by cases hl
  pending _ hds := by cases hds
  stops _ := Or.inr rfl
  rejected hrej := ⟨(h.rejected hrej).1, rfl, (h.rejected hrej).2.2⟩

end Conn

section Shapes

variable {srv : Server} {sid : Nat} {c' : Conn}

theorem ConnStep.shaped {o : Option Input} (h : ConnStep srv o sid c')
    (hall : ∀ id c, srv.conns.get id = some c → c.Shaped id) : c'.Shaped sid := by
  cases h with
  | kept hc => exact hall sid c' hc
  | opened i sub req _ _ _ _ hc' => exact hc' ▸ Conn.shaped_ofFirst sub req
  | went c hc _ h => exact (hall sid c hc).goes h
  | answered c op calls _ hc hcalls _ hc' => exact hc' ▸ (hall sid c hc).answered hcalls _
  | leased c _ hc hs _ hc' => exact hc' ▸ (hall sid c hc).leasedTo hs _
  | closed c _ hc hs _ hc' => exact hc' ▸ (hall sid c hc).closed hs

end Shapes

end OpenPubusb
