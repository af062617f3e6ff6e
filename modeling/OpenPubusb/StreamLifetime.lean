import OpenPubusb.StreamProtocol

/-! Over any interleaving, a stream's session lives exactly as long as its sending task, is
closed once, and every message leased for it is on the wire. -/

namespace OpenPubusb

open Hoare

def leasedBy (sid : Nat) (tr : Transition) : List Delivered :=
  match tr.input.op, tr.reply with
  | .leaseForStream id, .delivered _ ds => if id = sid then ds else []
  | _, _ => []

def leasedFor (sid : Nat) (trs : List Transition) : List Delivered := trs.flatMap (leasedBy sid)

def closesStream (sid : Nat) (i : Input) : Bool :=
  match i.op with
  | .closeStream id => id == sid
  | _ => false

section Engine

variable {s : Engine} {i : Input} {sid : Nat}

theorem session_unnamed (hwf : s.WellFormed) (hle : sid ≤ s.streams.nextId)
    (hop : i.op ≠ .restart) (hne : streamNamed i.op ≠ some sid) :
    (step s i).2.streams.sessions.get sid = s.streams.sessions.get sid := by
  have hs := step_streams hwf i
  unfold StreamEffect at hs
  split at hs
  · rcases hs with hs | ⟨info, _, hs⟩
    · rw [hs]
    · rw [hs]
      exact SortedMap.get_insert_ne _ _ (by omega)
  · next id _ _ _ hi =>
    have hid : sid ≠ id := fun h => hne (by rw [hi, h]; rfl)
    rw [hs, StreamRegistry.update, StreamRegistry.get_modifySession, if_neg hid]
  · next id hi =>
    have hid : sid ≠ id := fun h => hne (by rw [hi, h]; rfl)
    rcases hs with ⟨ds, _, hs⟩ | ⟨_, hs⟩
    · rw [hs, get_recordLeasedAll, if_neg hid]
    · rw [hs]
  · next id _ _ hi =>
    have hid : sid ≠ id := fun h => hne (by rw [hi, h]; rfl)
    rcases hs with ⟨_, hs⟩ | ⟨_, hs⟩
    · rw [hs, get_recordResolvedAll, if_neg hid]
    · rw [hs]
  · next id _ _ _ hi =>
    have hid : sid ≠ id := fun h => hne (by rw [hi, h]; rfl)
    rw [hs]
    split_ifs
    · rw [get_recordResolvedAll, if_neg hid]
    · rfl
  · next id hi =>
    have hid : sid ≠ id := fun h => hne (by rw [hi, h]; rfl)
    rw [hs]
    exact SortedMap.get_erase_ne _ hid
  · next hr => exact absurd hr hop
  · rw [hs]

theorem session_none (hwf : s.WellFormed) (hle : sid ≤ s.streams.nextId)
    (h : s.streams.sessions.get sid = none) : (step s i).2.streams.sessions.get sid = none := by
  cases hst' : (step s i).2.streams.sessions.get sid with
  | none => rfl
  | some st' =>
    cases sessionStep hwf hst' with
    | opened hid => omega
    | kept st hst => rw [h] at hst; cases hst
    | leased st hst => rw [h] at hst; cases hst
    | resolved st hst => rw [h] at hst; cases hst

theorem closed_session (hwf : s.WellFormed) (hop : i.op = .closeStream sid) :
    (step s i).2.streams.sessions.get sid = none := by
  have hs := step_streams hwf i
  simp only [StreamEffect, hop] at hs
  rw [hs]
  exact SortedMap.get_erase_self _ _

theorem ensures_openStream_new (nowMs : Int) (name : String) (secs messages bytes : Int) :
    Ensures (perform nowMs (.openStream name secs messages bytes)) s
      (fun r t => ∃ sub, SubscriptionStore.get s.kv name = .ok sub ∧
        r = .opened (s.streams.nextId + 1) ∧ t.streams = s.streams.openStream
          ⟨sub.id, sub.topicId, secs, messages, bytes⟩) (fun _ _ => True) := by
  simp only [perform, PubSubService.openStream, PubSubService.attached, openStream, setStreams,
    ensures_bind, ensures_pure, ensures_get, ensures_liftResult, ensures_ite, ensures_throw,
    ensures_modify]
  refine ⟨fun sub hsub => ⟨fun _ => trivial, fun _ => ⟨sub, hsub, ?_⟩⟩, fun _ _ => trivial⟩
  simp

theorem opened_session {name : String} {secs messages bytes : Int} {sub : SubscriptionRecord}
    (hop : i.op = .openStream name secs messages bytes) (hr : (step s i).1 = .opened sid)
    (hsub : SubscriptionStore.get s.kv name = .ok sub) :
    sid = s.streams.nextId + 1 ∧ (step s i).2.streams.sessions.get sid =
      some ⟨⟨sub.id, sub.topicId, secs, messages, bytes⟩, ∅, 0⟩ := by
  have h := ensures_openStream_new (s := s) i.nowMs name secs messages bytes
  unfold step at hr ⊢
  rw [hop] at hr ⊢
  cases hp : perform i.nowMs (.openStream name secs messages bytes) s with
  | error e t => rw [hp] at hr; cases hr
  | ok r t =>
    rw [hp] at hr
    obtain ⟨sub', hsub', hr', hs⟩ := h.of_ok hp
    rw [hsub, Except.ok.injEq] at hsub'
    subst hsub'
    rw [show r = .opened sid from hr, Reply.opened.injEq] at hr'
    subst hr'
    refine ⟨rfl, ?_⟩
    show t.streams.sessions.get _ = _
    rw [hs]
    exact SortedMap.get_insert_self _ _ _

end Engine

section Wire

variable {c c' : Conn} {sid : Nat} {ds : List Delivered}

/-- The responses put into the channel carry what was leased for the stream, in order, up to
what the sending task is about to send or could not send. -/
def Conn.Carries (c : Conn) (ds : List Delivered) : Prop :=
  ∃ lost : List Delivered, ds.map (.ofDelivered true) =
      c.responses.flatMap StreamingPullResponse.messages ++
        (c.send.pending ++ lost).map (.ofDelivered true) ∧
    (lost ≠ [] → c.dropped = true ∧ c.send.isLast = true)

theorem Conn.Carries.nothing_lost (h : c.Carries ds) (hlast : c.send.isLast = false) :
    ds.map (.ofDelivered true) = c.responses.flatMap StreamingPullResponse.messages ++
      c.send.pending.map (.ofDelivered true) := by
  obtain ⟨lost, hds, hlost⟩ := h
  by_cases hnil : lost = []
  · rw [hds, hnil, List.append_nil]
  · have hc := (hlost hnil).2
    rw [hlast] at hc
    cases hc

theorem Conn.Carries.of_eq (h : ds.map (.ofDelivered true) =
    c.responses.flatMap StreamingPullResponse.messages ++ c.send.pending.map (.ofDelivered true)) :
    c.Carries ds :=
  ⟨[], by rw [h, List.append_nil], fun hne => absurd rfl hne⟩

theorem Conn.Carries.goes (h : c.Carries ds) (hgo : Conn.Goes sid c c') (hshape : c.Shaped sid) :
    c'.Carries ds := by
  cases hgo with
  | spawned hr =>
    have hs := hshape.unspawned.mp (by rw [hr]; rfl)
    have hds := h.nothing_lost (by rw [hs]; rfl)
    rw [hs] at hds
    exact .of_eq hds
  | turned => exact h
  | finished => exact h
  | failed status =>
    obtain ⟨lost, hds, hlost⟩ := h
    refine ⟨lost, hds.trans ?_, hlost⟩
    rw [← c.responses_withItem_error status]
    rfl
  | greeted hs =>
    have hds := h.nothing_lost (by rw [hs]; rfl)
    rw [hs] at hds
    refine .of_eq (hds.trans ?_)
    have hresp := c.responses_withItem_ok c.properties
    simp only [Conn.sendSelects, SendTask.pending, List.map_nil, List.append_nil]
    show _ = (c.withItem (.ok c.properties)).responses.flatMap _
    rw [hresp, List.flatMap_append]
    simp [StreamingPullResponse.messages, Conn.properties]
  | sent batch hs =>
    have hds := h.nothing_lost (by rw [hs]; rfl)
    rw [hs] at hds
    refine .of_eq (hds.trans ?_)
    have hresp := c.responses_withItem_ok (.receivedMessages (batch.map (.ofDelivered true)))
    simp only [Conn.sendSelects, SendTask.pending, List.map_nil, List.append_nil]
    show _ = (c.withItem (.ok (.receivedMessages (batch.map (.ofDelivered true))))).responses.flatMap _
    rw [hresp, List.flatMap_append]
    simp [StreamingPullResponse.messages]
  | aborted status hs =>
    have hds := h.nothing_lost (by rw [hs]; rfl)
    rw [hs] at hds
    refine .of_eq (hds.trans ?_)
    show _ = (c.withItem (.error status)).responses.flatMap _ ++ _
    rw [c.responses_withItem_error status]
    rfl
  | gone hs hlast hgone =>
    refine ⟨c.send.pending, h.nothing_lost hlast, fun hne => ⟨?_, rfl⟩⟩
    rcases hgone with hd | hsel
    · exact hd
    · rw [hsel] at hne
      exact absurd rfl hne
  | aborts status hs =>
    have hds := h.nothing_lost (by rw [hs]; rfl)
    rw [hs] at hds
    exact .of_eq hds
  | reads item channel hc =>
    have hitems : Conn.items { c with channel := channel, received := c.received ++ [item] } =
        c.items := by simp [Conn.items, hc]
    obtain ⟨lost, hds, hlost⟩ := h
    refine ⟨lost, hds.trans ?_, hlost⟩
    rw [Conn.responses, Conn.responses, hitems]
  | drops =>
    obtain ⟨lost, hds, hlost⟩ := h
    exact ⟨lost, hds, fun hne => ⟨rfl, (hlost hne).2⟩⟩

theorem Conn.Carries.answered (h : c.Carries ds) {op : Op} {calls : List Op}
    (hcalls : c.recv.calls = op :: calls) (hshape : c.Shaped sid) (reply : Reply) :
    (c.answered calls reply).Carries ds := by
  rcases Conn.calls_cases hcalls with hr | hr
  · have hs := hshape.unspawned.mp (by rw [hr]; rfl)
    have hds := h.nothing_lost (by rw [hs]; rfl)
    rw [hs] at hds
    unfold Conn.answered
    rw [hr]
    cases reply with
    | failed e => exact .of_eq hds
    | _ => exact h
  · unfold Conn.answered
    rw [hr]
    cases reply <;> exact h

theorem Conn.Carries.leasedTo (h : c.Carries ds) (hs : c.send = .selecting) (s : Engine)
    (nowMs : Int) :
    (c.leasedTo (step s ⟨nowMs, .leaseForStream sid⟩).1).Carries
      (ds ++ leasedBy sid (Run.transition step s ⟨nowMs, .leaseForStream sid⟩)) := by
  have hds := h.nothing_lost (by rw [hs]; rfl)
  rw [hs] at hds
  have hds : ds.map (PulledMessage.ofDelivered true) =
      c.responses.flatMap StreamingPullResponse.messages := hds.trans (List.append_nil _)
  simp only [leasedBy, Run.transition, Conn.leasedTo]
  split
  · next j d batch hr =>
    rw [hr]
    refine .of_eq ?_
    simp only [if_true, List.map_append, hds]
    rfl
  · next e hr =>
    rw [hr]
    refine .of_eq ?_
    simp only [List.append_nil, hds, SendTask.pending, List.map_nil]
    rfl
  · next hr hr' =>
    refine .of_eq ?_
    rw [hs]
    simp only [SendTask.pending, List.map_nil, List.append_nil, List.map_append, hds]
    split
    · next id j batch hop hr₁ =>
      cases batch with
      | nil => simp
      | cons d batch => exact absurd hr₁ (hr j d batch)
    · simp

end Wire

/-- What holds of the connection and the service after the calls `is`. -/
structure Conn.Lives (is : List Input) (sid : Nat) (c : Conn) : Prop where
  session : c.send.isEnded = false → ∃ st,
    (Run.final step start is).streams.sessions.get sid = some st ∧
      ∀ q, st.tracks q → q ∈ (leasedFor sid (history is)).map Delivered.seq
  released : c.send.isEnded = true → (Run.final step start is).streams.sessions.get sid = none
  closes : is.countP (closesStream sid) = if c.send.isEnded then 1 else 0
  carries : c.Carries (leasedFor sid (history is))
  quiet : c.send.isEnded = true → ∃ is₁ now is₂, is = is₁ ++ ⟨now, .closeStream sid⟩ :: is₂ ∧
    ∀ i ∈ is₂, i.op ≠ .leaseForStream sid

section Lives

variable {is : List Input} {i : Input} {sid : Nat} {c c' : Conn}

theorem history_concat (is : List Input) (i : Input) :
    history (is ++ [i]) = history is ++ [Run.transition step (Run.final step start is) i] :=
  Run.trace_append start is [i]

theorem final_concat (is : List Input) (i : Input) :
    Run.final step start (is ++ [i]) = (step (Run.final step start is) i).2 :=
  Run.final_append start is [i]

theorem leasedFor_concat (is : List Input) (i : Input) : leasedFor sid (history (is ++ [i])) =
    leasedFor sid (history is) ++
      leasedBy sid (Run.transition step (Run.final step start is) i) := by
  rw [history_concat, leasedFor, leasedFor, List.flatMap_append, List.flatMap_singleton]

theorem leasedBy_eq_nil {tr : Transition} (h : tr.input.op ≠ .leaseForStream sid) :
    leasedBy sid tr = [] := by
  unfold leasedBy
  split
  · next id j ds hop _ =>
    have hid : id ≠ sid := fun he => h (by rw [hop, he])
    rw [if_neg hid]
  · rfl

theorem countP_concat (is : List Input) (i : Input) :
    (is ++ [i]).countP (closesStream sid) =
      is.countP (closesStream sid) + if closesStream sid i then 1 else 0 := by
  rw [List.countP_append, List.countP_singleton]

theorem closesStream_iff : closesStream sid i = true ↔ i.op = .closeStream sid := by
  unfold closesStream
  split
  · next id hop => simp [hop]
  · next hop => simp only [Bool.false_eq_true, false_iff]; exact hop sid

theorem Conn.Lives.extend (h : c.Lives is sid) (hs : c'.send.isEnded = c.send.isEnded)
    (hlease : i.op ≠ .leaseForStream sid) (hclose : i.op ≠ .closeStream sid)
    (hsome : ∀ st, (Run.final step start is).streams.sessions.get sid = some st →
      ∃ st', (step (Run.final step start is) i).2.streams.sessions.get sid = some st' ∧
        ∀ q, st'.tracks q → st.tracks q)
    (hnone : (Run.final step start is).streams.sessions.get sid = none →
      (step (Run.final step start is) i).2.streams.sessions.get sid = none)
    (hcarries : c'.Carries (leasedFor sid (history is))) : c'.Lives (is ++ [i]) sid where
  session hend := by
    obtain ⟨st, hst, htracks⟩ := h.session (hs ▸ hend)
    obtain ⟨st', hst', hsub⟩ := hsome st hst
    refine ⟨st', (final_concat is i).symm ▸ hst', fun q hq => ?_⟩
    rw [leasedFor_concat, leasedBy_eq_nil hlease, List.append_nil]
    exact htracks q (hsub q hq)
  released hend := by
    rw [final_concat]
    exact hnone (h.released (hs ▸ hend))
  closes := by
    rw [countP_concat, h.closes, hs]
    have hno : ¬ closesStream sid i = true := fun he => hclose (closesStream_iff.mp he)
    rw [if_neg hno, Nat.add_zero]
  carries := by
    rw [leasedFor_concat, leasedBy_eq_nil hlease, List.append_nil]
    exact hcarries
  quiet hend := by
    obtain ⟨is₁, now, is₂, rfl, hquiet⟩ := h.quiet (hs ▸ hend)
    refine ⟨is₁, now, is₂ ++ [i], by simp, fun j hj => ?_⟩
    rcases List.mem_append.mp hj with hj | hj
    · exact hquiet j hj
    · rw [List.mem_singleton.mp hj]
      exact hlease

theorem Conn.Lives.goes (h : c.Lives is sid) (hgo : Conn.Goes sid c c') (hshape : c.Shaped sid)
    (hs : c'.send.isEnded = c.send.isEnded) : c'.Lives is sid where
  session hend := h.session (hs ▸ hend)
  released hend := h.released (hs ▸ hend)
  closes := by rw [h.closes, hs]
  carries := h.carries.goes hgo hshape
  quiet hend := h.quiet (hs ▸ hend)

theorem Conn.Goes.isEnded (hgo : Conn.Goes sid c c') (hshape : c.Shaped sid) :
    c'.send.isEnded = c.send.isEnded := by
  cases hgo with
  | spawned hr => rw [hshape.unspawned.mp (by rw [hr]; rfl)]; rfl
  | greeted hs => rw [hs]; rfl
  | sent ds hs => rw [hs]; rfl
  | aborted status hs => rw [hs]; rfl
  | aborts status hs => rw [hs]; rfl
  | gone hs hlast =>
    show false = _
    cases hsend : c.send with
    | ended => rw [hsend] at hlast; cases hlast
    | _ => rfl
  | _ => rfl

theorem resolved_tracks {st : SessionState} {seq q : Nat}
    (h : (StreamRegistry.resolved st seq).tracks q) : st.tracks q := by
  unfold StreamRegistry.resolved at h
  split at h
  · exact h
  · simp only [SessionState.tracks, SortedMap.get_erase] at h
    split_ifs at h
    · exact absurd rfl h
    · exact h

/-- A call for acknowledgement keeps the session, which tracks no more than before. -/
theorem session_acksOn {s : Engine} (hwf : s.WellFormed) (hacks : AcksOn sid i.op)
    {st : SessionState} (hst : s.streams.sessions.get sid = some st) :
    ∃ st', (step s i).2.streams.sessions.get sid = some st' ∧ ∀ q, st'.tracks q → st.tracks q := by
  have hrestart : i.op ≠ .restart := by intro hop; rw [hop] at hacks; exact hacks
  have hclose : i.op ≠ .closeStream sid := by intro hop; rw [hop] at hacks; exact hacks
  obtain ⟨st', hst'⟩ := session_kept hwf hst hrestart hclose
  refine ⟨st', hst', ?_⟩
  cases sessionStep hwf hst' with
  | opened hid =>
    have hle := (hwf.session hst).1
    omega
  | kept st₁ hst₁ _ _ hout =>
    rw [hst, Option.some.injEq] at hst₁
    subst hst₁
    intro q hq
    rwa [SessionState.tracks, hout] at hq
  | leased _ _ _ hop =>
    rw [hop] at hacks
    exact hacks.elim
  | resolved st₁ hst₁ ackIds _ _ hst₂ =>
    rw [hst, Option.some.injEq] at hst₁
    subst hst₁
    subst hst₂
    exact resolvedAll_induction (P := fun x => ∀ q, x.tracks q → st.tracks q) (fun _ h => h)
      (fun _ _ hx q hq => hx q (resolved_tracks hq)) ackIds

theorem Conn.Lives.answered (h : c.Lives is sid) {op : Op} {calls : List Op} {now : Int}
    (hcalls : c.recv.calls = op :: calls) (hshape : c.Shaped sid)
    (hle : sid ≤ (Run.final step start is).streams.nextId) (reply : Reply) :
    (c.answered calls reply).Lives (is ++ [⟨now, op⟩]) sid := by
  have hacks : AcksOn sid op := hshape.acks op (hcalls ▸ List.mem_cons_self)
  have hend : (c.answered calls reply).send.isEnded = c.send.isEnded := by
    rcases Conn.calls_cases hcalls with hr | hr
    · rw [hshape.unspawned.mp (by rw [hr]; rfl)]
      unfold Conn.answered
      rw [hr]
      cases reply with
      | failed e => rfl
      | _ => exact congrArg SendTask.isEnded (hshape.unspawned.mp (by rw [hr]; rfl))
    · unfold Conn.answered
      rw [hr]
      cases reply <;> rfl
  refine h.extend hend ?_ ?_ (fun st hst => ?_) (session_none (wellFormed_final is) hle)
    (h.carries.answered hcalls hshape reply)
  · rintro rfl
    exact hacks
  · rintro rfl
    exact hacks
  · exact session_acksOn (wellFormed_final is) hacks hst

theorem Conn.Lives.leasedTo (h : c.Lives is sid) (hs : c.send = .selecting) (now : Int) :
    (c.leasedTo (step (Run.final step start is) ⟨now, .leaseForStream sid⟩).1).Lives
      (is ++ [⟨now, .leaseForStream sid⟩]) sid := by
  have hwf := wellFormed_final is
  have hlive : c.send.isEnded = false := by rw [hs]; rfl
  have hend : ∀ reply, (c.leasedTo reply).send.isEnded = false := by
    intro reply
    unfold Conn.leasedTo
    split
    · rfl
    · rfl
    · exact hlive
  refine ⟨fun _ => ?_, fun he => ?_, ?_, ?_, fun he => ?_⟩
  · obtain ⟨st, hst, htracks⟩ := h.session hlive
    obtain ⟨st', hst'⟩ := session_kept (i := ⟨now, .leaseForStream sid⟩) hwf hst (by simp) (by simp)
    refine ⟨st', (final_concat is _).symm ▸ hst', fun q hq => ?_⟩
    rw [leasedFor_concat, List.map_append, List.mem_append]
    cases sessionStep hwf hst' with
    | opened hid =>
      have hle := (hwf.session hst).1
      omega
    | kept st₁ hst₁ _ _ hout =>
      rw [hst, Option.some.injEq] at hst₁
      subst hst₁
      rw [SessionState.tracks, hout] at hq
      exact Or.inl (htracks q hq)
    | leased st₁ hst₁ ds _ hr hst₂ =>
      rw [hst, Option.some.injEq] at hst₁
      subst hst₁
      subst hst₂
      have hds : leasedBy sid (Run.transition step (Run.final step start is)
          ⟨now, .leaseForStream sid⟩) = ds := by
        simp only [leasedBy, Run.transition, hr, if_true]
      rw [hds]
      exact (tracks_leasedAll.mp hq).imp (htracks q) id
    | resolved _ _ _ hcall => cases hcall
  · rw [hend] at he
    cases he
  · rw [countP_concat, h.closes, hend, hlive]
    rfl
  · rw [leasedFor_concat]
    exact h.carries.leasedTo hs _ now
  · rw [hend] at he
    cases he

theorem Conn.Lives.closed (h : c.Lives is sid) (hs : c.send = .closing) (now : Int) :
    Conn.Lives (is ++ [⟨now, .closeStream sid⟩]) sid { c with send := .ended } := by
  have hlive : c.send.isEnded = false := by rw [hs]; rfl
  refine ⟨fun he => (by cases he), fun _ => ?_, ?_, ?_, fun _ => ?_⟩
  · rw [final_concat]
    exact closed_session (wellFormed_final is) rfl
  · rw [countP_concat, h.closes, hlive, closesStream_iff.mpr rfl]
    rfl
  · rw [leasedFor_concat, leasedBy_eq_nil (by simp [Run.transition]), List.append_nil]
    obtain ⟨lost, hds, hlost⟩ := h.carries
    rw [hs] at hds
    exact ⟨lost, hds, fun hne => ⟨(hlost hne).1, rfl⟩⟩
  · exact ⟨is, now, [], rfl, by simp⟩

theorem Conn.lives_ofFirst {sub : SubscriptionRecord} {req : StreamingPullRequest} {name : String}
    {secs messages bytes : Int} (hnamed : ∀ j ∈ is, streamNamed j.op ≠ some sid)
    (hop : i.op = .openStream name secs messages bytes)
    (hr : (step (Run.final step start is) i).1 = .opened sid)
    (hsub : SubscriptionStore.get (Run.final step start is).kv name = .ok sub) :
    (Conn.ofFirst sid sub req).Lives (is ++ [i]) sid := by
  obtain ⟨_, hst⟩ := opened_session hop hr hsub
  have hlive : (Conn.ofFirst sid sub req).send.isEnded = false := by
    unfold Conn.ofFirst
    dsimp only
    split <;> rfl
  have hno : ∀ j ∈ is ++ [i], streamNamed j.op ≠ some sid := by
    intro j hj
    rcases List.mem_append.mp hj with hj | hj
    · exact hnamed j hj
    · rw [List.mem_singleton.mp hj, hop]
      simp [streamNamed]
  have hleased : leasedFor sid (history (is ++ [i])) = [] := by
    refine List.flatMap_eq_nil_iff.mpr fun tr htr => leasedBy_eq_nil fun hl => ?_
    have hin : tr.input ∈ (history (is ++ [i])).map Run.Transition.input := List.mem_map_of_mem htr
    rw [history, Run.map_input_trace] at hin
    exact hno _ hin (by rw [hl]; rfl)
  refine ⟨fun _ => ?_, fun he => ?_, ?_, ?_, fun he => ?_⟩
  · rw [final_concat]
    refine ⟨_, hst, fun q hq => ?_⟩
    exact absurd rfl hq
  · rw [hlive] at he
    cases he
  · rw [hlive]
    refine List.countP_eq_zero.mpr fun j hj hc => hno j hj ?_
    rw [closesStream_iff.mp hc]
    rfl
  · rw [hleased]
    refine .of_eq ?_
    unfold Conn.ofFirst
    dsimp only
    split <;> rfl
  · rw [hlive] at he
    cases he

end Lives

section Server

variable {srv : Server} {is : List Input} {sid : Nat} {c : Conn}

theorem serve_engine (srv : Server) (e : Server.Event) :
    (srv.serve e).2.engine = Run.final step srv.engine (srv.serve e).1.toList := by
  have hrun : ∀ id now move, (srv.run id now move).2.engine =
      Run.final step srv.engine (srv.run id now move).1.toList := by
    intro id now move
    cases move <;> rfl
  unfold Server.serve
  cases e with
  | call i =>
    dsimp only
    split_ifs <;> rfl
  | streamingPull now req =>
    dsimp only [Server.accept]
    split
    · rfl
    · split <;> rfl
  | recv id now incoming =>
    dsimp only
    split
    · rfl
    · exact hrun ..
  | send id now branch =>
    dsimp only
    split
    · rfl
    · exact hrun ..
  | read id =>
    dsimp only
    split <;> rfl
  | drop id =>
    dsimp only
    split <;> rfl
  | shutdown => rfl

theorem serve_call {e : Server.Event} {i : Input}
    (hacks : ∀ id c, srv.conns.get id = some c → ∀ op ∈ c.recv.calls, AcksOn id op)
    (h : (srv.serve e).1 = some i) : i.op ≠ .restart ∧ ∀ id, streamNamed i.op = some id →
      id ≤ srv.engine.streams.nextId ∨ ∃ c, srv.conns.get id = some c := by
  have named : ∀ {id op} {c : Conn}, srv.conns.get id = some c → streamNamed op = some id →
      op ≠ .restart ∧ ∀ x, streamNamed op = some x →
        x ≤ srv.engine.streams.nextId ∨ ∃ c, srv.conns.get x = some c := by
    intro id op c hc hop
    refine ⟨ne_restart_of_named (by simp [hop]), fun x hx => Or.inr ⟨c, ?_⟩⟩
    rw [← Option.some.inj (hop.symm.trans hx)]
    exact hc
  unfold Server.serve at h
  cases e with
  | call j =>
    dsimp only at h
    split_ifs at h with hj
    rw [← Option.some.inj h]
    exact (callable_keeps hj).imp_right fun hn id hid => Or.inl (hn id hid).1
  | streamingPull now req =>
    dsimp only [Server.accept] at h
    split at h
    · cases h
    · next op hop =>
      rw [← Option.some.inj h]
      refine ⟨(firstCall_named hop).2, fun id hid => ?_⟩
      rw [(firstCall_named hop).1] at hid
      cases hid
  | recv id now incoming =>
    dsimp only at h
    split at h
    · cases h
    · next c hc =>
      cases hm : c.recvMove id incoming with
      | call op next =>
        rw [hm] at h
        obtain ⟨calls, hcalls, _⟩ := Conn.recvMove_call hm
        rw [← Option.some.inj h]
        exact named hc (streamNamed_acksOn (hacks id c hc op (by simp [hcalls])))
      | _ => rw [hm] at h; cases h
  | send id now branch =>
    dsimp only at h
    split at h
    · cases h
    · next c hc =>
      cases hm : c.sendMove id srv.shutdown branch with
      | call op next =>
        rw [hm] at h
        rw [← Option.some.inj h]
        rcases Conn.sendMove_call hm with ⟨_, rfl, _⟩ | ⟨_, rfl, _⟩ <;> exact named hc rfl
      | _ => rw [hm] at h; cases h
  | read id =>
    dsimp only at h
    split at h <;> cases h
  | drop id =>
    dsimp only at h
    split at h <;> cases h
  | shutdown => cases h

/-- What holds of the server after the calls `is`. -/
structure Server.Upholds (is : List Input) (srv : Server) : Prop where
  engine : srv.engine = Run.final step start is
  ids : ∀ sid c, srv.conns.get sid = some c → sid ≤ srv.engine.streams.nextId
  named : ∀ i ∈ is, ∀ sid, streamNamed i.op = some sid → sid ≤ srv.engine.streams.nextId
  shaped : ∀ sid c, srv.conns.get sid = some c → c.Shaped sid
  lives : ∀ sid c, srv.conns.get sid = some c → c.Lives is sid

theorem Server.Upholds.nextId_le (h : srv.Upholds is) (e : Server.Event) :
    srv.engine.streams.nextId ≤ (srv.serve e).2.engine.streams.nextId := by
  rw [serve_engine]
  cases ho : (srv.serve e).1 with
  | none => exact le_rfl
  | some i =>
    have hop := (serve_call (fun id c hc => (h.shaped id c hc).acks) ho).1
    have hwf := wellFormed_final is
    rw [← h.engine] at hwf
    exact nextId_le_step hwf hop

theorem ConnStep.lives {o : Option Input} {c' : Conn} (h : ConnStep srv o sid c')
    (hup : srv.Upholds is) : c'.Lives (is ++ o.toList) sid := by
  have heng := hup.engine
  cases h with
  | kept hc ho =>
    cases o with
    | none => exact (List.append_nil is).symm ▸ hup.lives sid c' hc
    | some i =>
      obtain ⟨hop, hne⟩ := ho i rfl
      have hle : sid ≤ (Run.final step start is).streams.nextId := heng ▸ hup.ids sid c' hc
      have hsame := session_unnamed (wellFormed_final is) hle hop hne
      refine (hup.lives sid c' hc).extend rfl ?_ ?_ (fun st hst => ?_) (fun hnone => ?_)
        (hup.lives sid c' hc).carries
      · intro hi
        exact hne (by rw [hi]; rfl)
      · intro hi
        exact hne (by rw [hi]; rfl)
      · exact ⟨st, hsame.trans hst, fun _ hq => hq⟩
      · exact hsame.trans hnone
  | opened i sub req ho hop hr hsub hc' =>
    subst ho
    subst hc'
    rw [heng] at hr hsub
    unfold firstCall at hop
    split_ifs at hop
    refine Conn.lives_ofFirst (fun j hj hid => ?_) (Except.ok.inj hop).symm hr hsub
    have hle := hup.named j hj sid hid
    have hnew := (opened_session (Except.ok.inj hop).symm hr hsub).1
    rw [heng] at hle
    omega
  | went c hc ho hgo =>
    subst ho
    rw [Option.toList_none, List.append_nil]
    exact (hup.lives sid c hc).goes hgo (hup.shaped sid c hc) (hgo.isEnded (hup.shaped sid c hc))
  | answered c op calls now hc hcalls ho hc' =>
    subst ho
    subst hc'
    exact (hup.lives sid c hc).answered hcalls (hup.shaped sid c hc) (heng ▸ hup.ids sid c hc) _
  | leased c now hc hs ho hc' =>
    subst ho
    subst hc'
    rw [heng]
    exact (hup.lives sid c hc).leasedTo hs now
  | closed c now hc hs ho hc' =>
    subst ho
    subst hc'
    exact (hup.lives sid c hc).closed hs now

theorem ConnStep.id_le {o : Option Input} {c' : Conn} (h : ConnStep srv o sid c')
    (hup : srv.Upholds is) {n : Nat} (hn : srv.engine.streams.nextId ≤ n)
    (hnew : ∀ i ∈ o, (step srv.engine i).2.streams.nextId ≤ n) : sid ≤ n := by
  cases h with
  | kept hc => exact (hup.ids sid c' hc).trans hn
  | opened i sub req ho hop hr hsub =>
    have hwf := wellFormed_step (i := i) (wellFormed_final is)
    rw [← hup.engine] at hwf
    unfold firstCall at hop
    split_ifs at hop
    have hst := (opened_session (Except.ok.inj hop).symm hr hsub).2
    exact (hwf.session hst).1.trans (hnew i ho)
  | went c hc => exact (hup.ids sid c hc).trans hn
  | answered c _ _ _ hc => exact (hup.ids sid c hc).trans hn
  | leased c _ hc => exact (hup.ids sid c hc).trans hn
  | closed c _ hc => exact (hup.ids sid c hc).trans hn

theorem Server.Upholds.serve (h : srv.Upholds is) (e : Server.Event) :
    (srv.serve e).2.Upholds (is ++ (srv.serve e).1.toList) := by
  have hacks : ∀ id c, srv.conns.get id = some c → ∀ op ∈ c.recv.calls, AcksOn id op :=
    fun id c hc => (h.shaped id c hc).acks
  refine ⟨?_, fun sid c' hc' => ?_, fun i hi sid hid => ?_, fun sid c' hc' => ?_,
    fun sid c' hc' => ?_⟩
  · rw [serve_engine, h.engine, Run.final_append]
  · refine (connStep hacks hc').id_le h (h.nextId_le e) fun i hi => ?_
    rw [serve_engine, Option.mem_def.mp hi]
    exact le_rfl
  · refine le_trans ?_ (h.nextId_le e)
    rcases List.mem_append.mp hi with hi | hi
    · exact h.named i hi sid hid
    · have ho : (srv.serve e).1 = some i := by simpa using hi
      rcases (serve_call hacks ho).2 sid hid with hle | ⟨c, hc⟩
      · exact hle
      · exact h.ids sid c hc
  · exact (connStep hacks hc').shaped h.shaped
  · exact (connStep hacks hc').lives h

theorem calls_concat (es : List Server.Event) (e : Server.Event) : Server.calls (es ++ [e]) =
    Server.calls es ++ ((Server.reach es).serve e).1.toList := by
  rw [Server.calls, Run.trace_append, List.filterMap_append]
  refine congrArg _ ?_
  simp only [Run.trace, List.filterMap_cons, List.filterMap_nil, Run.transition]
  show _ = ((Run.final Server.serve Server.boot es).serve e).1.toList
  cases ((Run.final Server.serve Server.boot es).serve e).1 <;> rfl

theorem upholds_boot : Server.boot.Upholds [] := by
  constructor
  · rfl
  all_goals simp [Server.boot]

/-- The run lemma: the server is the service, run on the calls of its events. -/
theorem upholds_reach (es : List Server.Event) : (Server.reach es).Upholds (Server.calls es) := by
  induction es using List.reverseRecOn with
  | nil => exact upholds_boot
  | append_singleton es e ih =>
    have hreach : Server.reach (es ++ [e]) = ((Server.reach es).serve e).2 :=
      Run.final_append Server.boot es [e]
    rw [hreach, calls_concat]
    exact ih.serve e

end Server

/-- In every interleaving, the session of a stream is there exactly until its sending task has
ended, which closes it once; the close takes the lease and the row of every message that the
session then tracks, and nothing is leased for the stream afterwards. -/
theorem stream_closed_once (es : List Server.Event) {sid : Nat} {c : Conn}
    (h : (Server.reach es).conns.get sid = some c) :
    (Server.reach es).engine = Run.final step start (Server.calls es) ∧
      ((Server.reach es).engine.streams.info sid = none ↔ c.send.isEnded = true) ∧
      (Server.calls es).countP (closesStream sid) = (if c.send.isEnded then 1 else 0) ∧
      (c.send.isEnded = true → ∃ is₁ now is₂,
        Server.calls es = is₁ ++ ⟨now, .closeStream sid⟩ :: is₂ ∧
        (∀ i ∈ is₂, i.op ≠ .leaseForStream sid) ∧
        let s := Run.final step start is₁
        let t := (step s ⟨now, .closeStream sid⟩).2
        ∀ st q, s.streams.sessions.get sid = some st → st.tracks q →
          t.leases.get st.info.subId q = none ∧ t.kv.dlv.get ⟨st.info.subId, q⟩ = none) := by
  have hup := upholds_reach es
  have hlives := hup.lives sid c h
  refine ⟨hup.engine, ⟨fun hnone => ?_, fun hend => ?_⟩, hlives.closes, fun hend => ?_⟩
  · by_contra hend
    obtain ⟨st, hst, _⟩ := hlives.session (by simpa using hend)
    rw [hup.engine, StreamRegistry.info, hst] at hnone
    cases hnone
  · rw [hup.engine, StreamRegistry.info, hlives.released hend]
    rfl
  · obtain ⟨is₁, now, is₂, his, hquiet⟩ := hlives.quiet hend
    refine ⟨is₁, now, is₂, his, hquiet, fun st q hst hq => ?_⟩
    have hrel := (step_closeStream (i := ⟨now, .closeStream sid⟩) (wellFormed_final is₁) rfl).1 st hst
    have hmem := SessionState.mem_keys.mpr hq
    exact ⟨(hrel.leases _ q).1 ⟨rfl, hmem⟩, (hrel.dlv _ q).1 ⟨rfl, hmem⟩⟩

/-- A stream that leases one message, whose client then half-closes it. -/
def oneMessageStream : List Server.Event :=
  (setup {}).map Server.Event.call ++
    [.streamingPull 1 ⟨"projects/p/subscriptions/subA", [], [], [], 10, 0, 0⟩, .recv 1 1 none,
      .send 1 1 .lease, .send 1 1 .lease, .send 1 1 .lease, .read 1,
      .recv 1 2 (some .halfClosed), .send 1 2 .cancelled, .send 1 2 .cancelled]

theorem stream_closed_once_halfClosed :
    (Server.reach oneMessageStream).engine.streams.info 1 = none ∧
      (Server.calls oneMessageStream).countP (closesStream 1) = 1 := by
  have hend : ((Server.reach oneMessageStream).conns.get 1).map (fun c => c.send.isEnded) =
      some true := by decide +kernel
  obtain ⟨c, hc, hce⟩ := Option.map_eq_some_iff.mp hend
  obtain ⟨_, hinfo, hcount, _⟩ := stream_closed_once oneMessageStream hc
  rw [hce] at hcount
  exact ⟨hinfo.mpr hce, hcount⟩

/-- In every interleaving, what is put into the channel of a stream is the properties and then
batches that carry, in order, exactly the messages leased for the stream, up to a batch about to
be sent or one that a client that is gone could not get; at most two errors are among them, and
the session tracks no other message. -/
theorem responses_carry_leases (es : List Server.Event) {sid : Nat} {c : Conn}
    (h : (Server.reach es).conns.get sid = some c) :
    (c.responses = [] ∨ c.Greeted) ∧ c.items.countP isError ≤ 2 ∧
      c.channel.length ≤ responseChannelCapacity ∧
      (c.recv.isEnded = true → c.cancelled = true ∨ c.send.isLast = true) ∧
      c.Carries (leasedFor sid (history (Server.calls es))) ∧
      ∀ st q, (Server.reach es).engine.streams.sessions.get sid = some st → st.tracks q →
        q ∈ (leasedFor sid (history (Server.calls es))).map Delivered.seq := by
  have hup := upholds_reach es
  have hlives := hup.lives sid c h
  have hshape := hup.shaped sid c h
  refine ⟨hshape.greeted, ?_, hshape.capacity, hshape.stops, hlives.carries, fun st q hst hq => ?_⟩
  · refine hshape.errors.trans ?_
    split_ifs <;> omega
  · cases hend : c.send.isEnded with
    | true =>
      rw [hup.engine, hlives.released hend] at hst
      cases hst
    | false =>
      obtain ⟨st', hst', htracks⟩ := hlives.session hend
      rw [hup.engine, hst', Option.some.injEq] at hst
      exact htracks q (hst ▸ hq)

theorem responses_carry_leases_halfClosed :
    ∃ c, (Server.reach oneMessageStream).conns.get 1 = some c ∧ c.responses.length = 2 ∧
      c.Carries (leasedFor 1 (history (Server.calls oneMessageStream))) := by
  have hlen : ((Server.reach oneMessageStream).conns.get 1).map (fun c => c.responses.length) =
      some 2 := by decide +kernel
  obtain ⟨c, hc, hcl⟩ := Option.map_eq_some_iff.mp hlen
  exact ⟨c, hc, hcl, (responses_carry_leases oneMessageStream hc).2.2.2.2.1⟩

end OpenPubusb
