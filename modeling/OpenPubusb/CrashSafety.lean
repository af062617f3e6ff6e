import OpenPubusb.Compact
import OpenPubusb.CrashRows
import OpenPubusb.ReclaimPaths

/-! Runs in which the process is killed after any number of writes and started
again over the rows that are there: no message is lost, and no acknowledgement that
was answered is undone. -/

namespace OpenPubusb

open Hoare

/-- An operation that runs to its end, or one that the process is killed in, once it
has made `writes` writes. -/
inductive Event where
  | run (i : Input)
  | cut (i : Input) (writes : Nat)

def Event.input : Event → Input
  | .run i => i
  | .cut i _ => i

def Kv.cutAfter (kv : Kv) (n : Nat) : Kv := { kv with ok := fun w => w < kv.writes + n }

def Kv.reopened (kv : Kv) : Kv := { kv with ok := fun _ => true }

/-- The service started again over what the first `n` writes of the operation left. -/
def cut (s : Engine) (i : Input) (n : Nat) : Engine :=
  let t := (step { s with kv := s.kv.cutAfter n } i).2
  .boot t.kv.reopened t.deadLettered

def crashStep (s : Engine) : Event → Option Reply × Engine
  | .run i => (some (step s i).1, (step s i).2)
  | .cut i n => (none, cut s i n)

abbrev CrashTransition := Run.Transition Engine Event (Option Reply)

def crashHistory (es : List Event) : List CrashTransition := Run.trace crashStep start es

/-- The operations that give messages up: they move a cursor by hand, or remove rows. -/
def Op.givesUp : Op → Bool
  | .seekToSnapshot .. => true
  | .seekToTime .. => true
  | .deleteSubscription .. => true
  | .sweepRetention => true
  | _ => false

/-- The process may be killed in any call that delivers or acknowledges. -/
def Event.allowed : Event → Bool
  | .run i => ! i.op.givesUp
  | .cut i _ => i.op.isDelivery

/-- The step gives nothing up, and no id of an acknowledgement was issued for another
subscription. -/
structure GivesNothingUp (tr : CrashTransition) : Prop where
  allowed : tr.input.allowed = true
  own : NoForeignAck tr.pre tr.input.input.op

/-- An acknowledgement of the message was sent to its subscription. -/
def AckSubmitted (trs : List CrashTransition) (subId seq : Nat) : Prop :=
  ∃ tr ∈ trs, ∃ ackIds, ackCall tr.pre.kv tr.input.input.op = some (subId, ackIds) ∧
    ∃ ackId ∈ ackIds, ∃ generation, decodeAckId ackId = some (subId, seq, generation)

/-- The acknowledgement named the lease of the message, and it was answered. -/
def AckAnswered (tr : CrashTransition) (subId seq : Nat) : Prop :=
  ∃ i ackIds, tr.input = .run i ∧ ackCall tr.pre.kv i.op = some (subId, ackIds) ∧
    Hit tr.pre.leases ackIds subId seq ∧ tr.reply = some .done

def HandsOut (tr : CrashTransition) (subId seq : Nat) : Prop :=
  ∃ ds d, tr.reply = some (.delivered subId ds) ∧ d ∈ ds ∧ d.seq = seq

/-- The publish of the message was answered, with this seq. -/
def PublishAnswered (tr : CrashTransition) (topicId seq : Nat) (m : PublishMessage) : Prop :=
  ∃ nowMs topic ms seqs, tr.input = .run ⟨nowMs, .publish topic ms⟩ ∧
    tr.reply = some (.published topicId seqs) ∧ (seq, m) ∈ seqs.zip ms

def Kv.Stores (kv : Kv) (topicId seq : Nat) (m : PublishMessage) : Prop :=
  ∃ nowMs expireAtMs, kv.msg.get ⟨topicId, seq⟩ = some (TopicStore.record m nowMs expireAtMs)

def InDeadLetterLog (s : Engine) (subId seq : Nat) : Prop :=
  ∃ en ∈ s.deadLettered, en.subId = subId ∧ en.seq = seq

/-- At the end of the run every published message is in its log, and it is open in
every subscription that has not acknowledged it, forwarded it or rejected it. An
answered acknowledgement holds from then on. -/
structure NothingLost (es : List Event) : Prop where
  kept : ∀ tr ∈ crashHistory es, ∀ subId r seq m,
    (Run.final crashStep start es).kv.subs.get subId = some r →
    PublishAnswered tr r.topicId seq m →
    (Run.final crashStep start es).kv.Stores r.topicId seq m ∧
    ∃ c, (Run.final crashStep start es).kv.cursors.get subId = some c ∧
      (c.attachSeq < seq →
        accepts (storedFilter (Run.final crashStep start es).kv subId) m.attributes = true →
        ¬ AckSubmitted (crashHistory es) subId seq →
        ¬ InDeadLetterLog (Run.final crashStep start es) subId seq → c.isDone seq = false)
  acked : ∀ l tr l', crashHistory es = l ++ tr :: l' → ∀ subId seq, AckAnswered tr subId seq →
    (∃ c, (Run.final crashStep start es).kv.cursors.get subId = some c ∧ c.isDone seq = true) ∧
    ∀ tr' ∈ l', ¬ HandsOut tr' subId seq

section Steps

variable {s t : Engine}

/-- What every step of such a run carries over. -/
structure Carried (s : Engine) (op : Op) (t : Engine) : Prop where
  wf : t.WellFormed
  cache : CacheStored t
  cursor : ∀ {id c}, s.kv.cursors.get id = some c →
    ∃ c', t.kv.cursors.get id = some c' ∧ c.Advanced c'
  record : ∀ {id r'}, (s.kv.subs.get id).isSome → t.kv.subs.get id = some r' →
    ∃ r, s.kv.subs.get id = some r ∧ r'.topicId = r.topicId ∧ r'.filter = r.filter
  log : ∀ {topicId seq m}, s.kv.msg.get ⟨topicId, seq⟩ = some m →
    t.kv.msg.get ⟨topicId, seq⟩ = some m
  logged : Logged s t
  marks : ∀ {id c'}, t.kv.cursors.get id = some c' →
    (∃ c, s.kv.cursors.get id = some c ∧ c.Advanced c' ∧
      ∀ q, c'.isDone q = true → c.isDone q = true ∨ MarkCause s op t id q) ∨
    ∃ n, c' = .fresh n n

theorem wellFormed_withOk {kv : Kv} (h : kv.WellFormed) (ok : Nat → Bool) :
    ({ kv with ok := ok } : Kv).WellFormed :=
  ⟨h.record, h.cursor, h.index, h.log⟩

theorem ackCall_withOk (kv : Kv) (ok : Nat → Bool) (op : Op) :
    ackCall { kv with ok := ok } op = ackCall kv op := by
  cases op <;> rfl

theorem MarkCause.of_withOk {op : Op} {ok : Nat → Bool} {id q : Nat}
    (h : MarkCause { s with kv := { s.kv with ok := ok } } op t id q) : MarkCause s op t id q := by
  rcases h with ⟨ackIds, hcall, hhit⟩ | hen | hrej
  · rw [ackCall_withOk] at hcall
    exact Or.inl ⟨ackIds, hcall, hhit⟩
  · exact Or.inr (Or.inl hen)
  · exact Or.inr (Or.inr hrej)

theorem Survives.record {kv kv' : Kv} (h : Survives kv kv') {id : Nat} {r' : SubscriptionRecord}
    (hr' : kv'.subs.get id = some r') :
    ∃ r, kv.subs.get id = some r ∧ r'.topicId = r.topicId ∧ r'.filter = r.filter := by
  have hid := h.records id
  rw [hr', Option.map_some] at hid
  obtain ⟨r, hr, heq⟩ := Option.map_eq_some_iff.mp hid.symm
  exact ⟨r, hr, (congrArg (fun k => k.2.2.1) heq).symm, (congrArg (fun k => k.2.2.2) heq).symm⟩

theorem carried_boot {op : Op} {ok : Nat → Bool} (hsurvives : Survives { s.kv with ok := ok } t.kv)
    (hmarks : Gains (MarkCause { s with kv := { s.kv with ok := ok } } op t)
      { s.kv with ok := ok } t.kv)
    (hlogged : Logged s t) : Carried s op (.boot t.kv.reopened t.deadLettered) := by
  have hct : Consistent t.kv.reopened := consistent_withOk hsurvives.consistent _
  have hcursors : ∀ {id c}, t.kv.cursors.get id = some c → ∃ r, t.kv.subs.get id = some r := by
    intro id c hcur
    have hsome : (t.kv.reopened.cursors.get id).isSome := Option.isSome_of_eq_some hcur
    exact Option.isSome_iff_exists.mp ((hct.cursors id).mp hsome)
  refine ⟨⟨wellFormed_withOk hsurvives.wellFormed _, fun _ => rfl, hcursors,
    coherent_recoveredLeases _, fun hst => ?_⟩, ⟨hct, fun _ => rfl, fun hf => ?_⟩,
    hsurvives.cursor, fun _ hr' => hsurvives.record hr', hsurvives.log, hlogged,
    fun {id c'} hc' => ?_⟩
  · cases hst
  · cases hf
  · obtain ⟨c, hcur, ha, hnew⟩ := hmarks id c' hc'
    exact Or.inl ⟨c, hcur, ha, fun q hq => (hnew q hq).imp_right MarkCause.of_withOk⟩

theorem carried_cut (hwf : s.WellFormed) (hcache : CacheStored s) {i : Input}
    (hop : i.op.isDelivery = true) (n : Nat) : Carried s i.op (cut s i n) := by
  have hc : Consistent (s.kv.cutAfter n) := consistent_withOk hcache.consistent _
  have hg : Grounded { s with kv := s.kv.cutAfter n } :=
    ⟨hc, hwf.coherent, fun hst => (hwf.session hst).2.2⟩
  have hsafe := keeps_step (s := { s with kv := s.kv.cutAfter n }) (safe_perform i.nowMs hop)
  have hlogged := keeps_step (s := { s with kv := s.kv.cutAfter n }) (logged_perform i.nowMs i.op)
  exact carried_boot (hsafe hc (wellFormed_withOk hwf.kv _))
    (ensures_step (P := fun t => Gains (MarkCause { s with kv := s.kv.cutAfter n } i.op t)
      (s.kv.cutAfter n) t.kv) (ensures_perform_marks hg i.nowMs hop)) hlogged

/-- A change of an operation that gives nothing up leaves the cursors where they are,
or further on. -/
theorem Change.keeps_cursor {op : Op} {kv kv' : Kv} (h : Change op kv kv') (hc : Consistent kv)
    (hop : op.givesUp = false) {id : Nat} {c : CursorRecord} (hcur : kv.cursors.get id = some c) :
    ∃ c', kv'.cursors.get id = some c' ∧ c.Advanced c' := by
  cases h with
  | advance w _ hold ha =>
    simp only [SortedMap.get_insert]
    split_ifs with hi
    · rw [← hi, hcur, Option.some.injEq] at hold
      exact ⟨_, rfl, hold ▸ ha⟩
    · exact ⟨c, hcur, .refl c⟩
  | seek dlv w hseek =>
    cases op with
    | seekToSnapshot => cases hop
    | seekToTime => cases hop
    | _ => cases hseek
  | createSubscription =>
    have hknown : id ≤ kv.counter := by
      refine hc.sub_known ((hc.cursors id).mp ?_)
      rw [hcur]
      rfl
    refine ⟨c, ?_, .refl c⟩
    rw [SortedMap.get_insert_ne _ _ (by omega)]
    exact hcur
  | deleteSubscription w _ hdel =>
    rcases hdel with rfl | rfl <;> cases hop
  | _ => exact ⟨c, hcur, .refl c⟩

theorem Path.keeps_cursor {op : Op} {kv kv' : Kv} (h : Path op kv kv') (hc : Consistent kv)
    (hop : op.givesUp = false) {id : Nat} {c : CursorRecord} (hcur : kv.cursors.get id = some c) :
    ∃ c', kv'.cursors.get id = some c' ∧ c.Advanced c' := by
  induction h with
  | refl => exact ⟨c, hcur, .refl c⟩
  | tail hp hch ih =>
    obtain ⟨c', hc', ha⟩ := ih
    obtain ⟨c'', hc'', ha'⟩ := hch.keeps_cursor (Path.evolves hp hc).consistent hop hc'
    exact ⟨c'', hc'', ha.trans ha'⟩

theorem carried_run (hwf : s.WellFormed) (hcache : CacheStored s) {i : Input}
    (hop : i.op.givesUp = false) : Carried s i.op (step s i).2 := by
  have hc := hcache.consistent
  have hsweep : i.op ≠ .sweepRetention := by
    intro he
    rw [he] at hop
    cases hop
  refine ⟨wellFormed_step hwf i, hcache.step i, (step_path i hc hwf.healthy).keeps_cursor hc hop,
    fun hid hr' => (step_record hc hwf.healthy i hr').kept (hc.sub_known hid),
    (step_grown hwf hc hsweep).kept, keeps_step (logged_perform i.nowMs i.op), fun {id c'} hc' => ?_⟩
  cases hdel : i.op.isDelivery with
  | true =>
    have hmarks := ensures_step (P := fun t => Gains (MarkCause s i.op t) s.kv t.kv)
      (ensures_perform_marks ⟨hc, hwf.coherent, fun hst => (hwf.session hst).2.2⟩ i.nowMs hdel)
    exact Or.inl (hmarks id c' hc')
  | false =>
    have hlease : i.op.isLease = false ∧ i.op.isAck = false := by
      cases hi : i.op with
      | publish => exact ⟨rfl, rfl⟩
      | _ =>
        rw [hi] at hdel
        simp_all [Op.isDelivery]
    rcases step_cursor hc hwf.healthy hc' with ⟨c, hcur, ha, heq⟩ | hseek | ⟨_, r, _, hfresh⟩
    · rw [heq hlease.1 hlease.2]
      exact Or.inl ⟨c, hcur, .refl c, fun _ => Or.inl⟩
    · cases hi : i.op with
      | seekToSnapshot => rw [hi] at hop; cases hop
      | seekToTime => rw [hi] at hop; cases hop
      | _ => rw [hi] at hseek; cases hseek
    · exact Or.inr ⟨_, hfresh⟩

theorem carried_step (hwf : s.WellFormed) (hcache : CacheStored s) {e : Event}
    (he : e.allowed = true) : Carried s e.input.op (crashStep s e).2 := by
  cases e with
  | run i =>
    have hop : i.op.givesUp = false := by simpa [Event.allowed] using he
    exact carried_run hwf hcache hop
  | cut i n => exact carried_cut hwf hcache he n

theorem step_published {nowMs : Int} {topic : String} {ms : List PublishMessage} {topicId : Nat}
    {seqs : List Nat} (hr : (step s ⟨nowMs, .publish topic ms⟩).1 = .published topicId seqs) :
    ∀ p ∈ seqs.zip ms, (step s ⟨nowMs, .publish topic ms⟩).2.kv.Stores topicId p.1 p.2 := by
  have h : Ensures (perform nowMs (.publish topic ms)) s (fun r t => ∀ topicId seqs,
      r = .published topicId seqs → ∀ p ∈ seqs.zip ms, t.kv.Stores topicId p.1 p.2)
      (fun _ _ => True) := by
    simp only [perform, PubSubService.publish, ensures_bind, onKv, ensures_focus, ensures_get,
      ensures_liftResult, ensures_pure]
    refine ⟨fun r _ => ?_, fun _ _ => trivial⟩
    refine (ensures_append ..).mono (fun seqs kv' h topicId seqs' heq p hp => ?_)
      (fun _ _ _ => trivial)
    cases heq
    exact ⟨_, _, h.rows p hp⟩
  unfold step at hr ⊢
  cases hm : perform nowMs (.publish topic ms) s with
  | ok r t =>
    rw [hm] at hr
    exact h.of_ok hm _ _ hr
  | error e t =>
    rw [hm] at hr
    cases hr

theorem step_ackDone (hwf : s.WellFormed) {i : Input} {subId seq : Nat} {ackIds : List String}
    (hcall : ackCall s.kv i.op = some (subId, ackIds)) (hhit : Hit s.leases ackIds subId seq)
    (hr : (step s i).1 = .done) :
    ∃ c, (step s i).2.kv.cursors.get subId = some c ∧ c.isDone seq = true := by
  have hack : Ensures (acknowledge subId ackIds) s
      (fun _ t => ∃ c, t.kv.cursors.get subId = some c ∧ c.isDone seq = true)
      (fun _ _ => True) := by
    refine (ensures_acknowledge ackIds hwf.healthy hwf.coherent).mono (fun _ t h => ?_)
      (fun _ _ _ => trivial)
    have hne : ackIds ≠ [] := by
      rintro rfl
      exact hit_nil hhit
    obtain ⟨c, hc⟩ := h.loaded hne
    obtain ⟨c', hc', hdone, _⟩ := h.done hc
    exact ⟨c', hc', (hdone seq).mpr (Or.inr ⟨subId, hhit⟩)⟩
  have htouch : ∀ u : Engine, (∃ c, u.kv.cursors.get subId = some c ∧ c.isDone seq = true) →
      Ensures (PubSubService.touch subId i.nowMs) u
        (fun _ t => ∃ c, t.kv.cursors.get subId = some c ∧ c.isDone seq = true)
        (fun _ _ => True) := by
    rintro u ⟨c, hc, hdone⟩
    have hkeep : Keeps (fun kv kv' => kv'.cursors = kv.cursors)
        (SubscriptionStore.touch subId i.nowMs) := TouchFrame.touch subId i.nowMs
    simp only [PubSubService.touch, ensures_ignore, onKv, ensures_focus]
    exact (hkeep u.kv).mono (fun _ _ he => ⟨c, by rw [he]; exact hc, hdone⟩)
      (fun _ _ he => ⟨c, by rw [he]; exact hc, hdone⟩)
  have hperform : Ensures (perform i.nowMs i.op) s
      (fun _ t => ∃ c, t.kv.cursors.get subId = some c ∧ c.isDone seq = true)
      (fun _ _ => True) := by
    cases hi : i.op with
    | acknowledge name ids =>
      rw [hi] at hcall
      simp only [perform, PubSubService.acknowledge, ensures_bind, ensures_pure, ensures_get,
        ensures_liftResult]
      refine ⟨fun sub hsub => ?_, fun _ _ => trivial⟩
      rw [ackCall, subscriptionId, hsub, Option.map_some, Option.some.injEq, Prod.mk.injEq] at hcall
      obtain ⟨rfl, rfl⟩ := hcall
      exact hack.mono (fun _ t h => htouch t h) (fun _ _ _ => trivial)
    | streamAcknowledge sid id ids =>
      rw [hi] at hcall
      cases hcall
      simp only [perform, PubSubService.streamAcknowledge, streamAcknowledge, ensures_bind,
        ensures_pure, ensures_modify]
      exact hack.mono (fun _ t h => htouch { t with streams := _ } h) (fun _ _ _ => trivial)
    | _ =>
      rw [hi] at hcall
      cases hcall
  unfold step at hr ⊢
  cases hm : perform i.nowMs i.op s with
  | ok r t => exact hperform.of_ok hm
  | error e t =>
    rw [hm] at hr
    cases hr

theorem HandsOut.open {e : Event} {subId seq : Nat} (hwf : s.WellFormed)
    (h : HandsOut (Run.transition crashStep s e) subId seq) :
    ∃ c, s.kv.cursors.get subId = some c ∧ c.isDone seq = false := by
  obtain ⟨ds, d, hreply, hd, rfl⟩ := h
  cases e with
  | cut i n => cases hreply
  | run i =>
    have hr : (step s i).1 = .delivered subId ds := Option.some.inj hreply
    obtain ⟨a, u, hl⟩ := step_leased hwf hr
    have hpending := (hl.done.delivered hd).1
    rw [hl.sub] at hpending
    obtain ⟨c, _, hc, _, hopen, _⟩ := Kv.pending_iff.mp hpending
    exact ⟨c, hc, hopen⟩

end Steps

section Runs

variable {l : List CrashTransition} {s : Engine}

/-- Why a message may be done in the cursor of a subscription with the record `r`. -/
def Explained (l : List CrashTransition) (s : Engine) (subId : Nat) (r : SubscriptionRecord)
    (seq : Nat) : Prop :=
  AckSubmitted l subId seq ∨ InDeadLetterLog s subId seq ∨
    ∃ m, s.kv.msg.get ⟨r.topicId, seq⟩ = some m ∧
      accepts (storedFilter s.kv subId) m.attributes = false

/-- What a run leaves, with its transitions so far. -/
structure Intact (l : List CrashTransition) (s : Engine) : Prop where
  wf : s.WellFormed
  cache : CacheStored s
  done : ∀ {subId r c seq}, s.kv.subs.get subId = some r → s.kv.cursors.get subId = some c →
    c.attachSeq < seq → c.isDone seq = true → Explained l s subId r seq
  holds : ∀ tr ∈ l, ∀ topicId seq m, PublishAnswered tr topicId seq m →
    s.kv.Stores topicId seq m
  acked : ∀ tr ∈ l, ∀ subId seq, AckAnswered tr subId seq →
    ∃ c, s.kv.cursors.get subId = some c ∧ c.isDone seq = true
  silent : l.Pairwise fun a b => ∀ subId seq, AckAnswered a subId seq → ¬ HandsOut b subId seq

theorem AckSubmitted.append {subId seq : Nat} (h : AckSubmitted l subId seq)
    (l' : List CrashTransition) : AckSubmitted (l ++ l') subId seq := by
  obtain ⟨tr, htr, hack⟩ := h
  exact ⟨tr, List.mem_append_left _ htr, hack⟩

theorem storedFilter_same {kv kv' : Kv} {subId : Nat} {r r' : SubscriptionRecord}
    (hr : kv.subs.get subId = some r) (hr' : kv'.subs.get subId = some r')
    (hf : r'.filter = r.filter) : storedFilter kv' subId = storedFilter kv subId := by
  rw [storedFilter, storedFilter, hr, hr', Option.map_some, Option.map_some, hf]

section Step

variable {e : Event} (h : Intact l s)
  (hk : GivesNothingUp (Run.transition crashStep s e))

include h hk

theorem Intact.explained_of_cause {subId seq : Nat} {r : SubscriptionRecord}
    {r' : SubscriptionRecord} (hr : s.kv.subs.get subId = some r)
    (hr' : (crashStep s e).2.kv.subs.get subId = some r') (htopic : r'.topicId = r.topicId)
    (hfilter : r'.filter = r.filter)
    (hcause : MarkCause s e.input.op (crashStep s e).2 subId seq) :
    Explained (l ++ [Run.transition crashStep s e]) (crashStep s e).2 subId r' seq := by
  have hcar := carried_step h.wf h.cache hk.allowed
  rcases hcause with ⟨ackIds, hcall, j, ackId, hmem, hn⟩ | hen | ⟨topicId, m, ht, hm, hrej⟩
  · have hj : j = subId := hk.own subId ackIds hcall ackId hmem j seq hn
    obtain ⟨lease, _, hdecode⟩ := hn
    refine Or.inl ⟨Run.transition crashStep s e, List.mem_append_right _ List.mem_cons_self, ackIds,
      hcall, ackId, hmem, lease.generation, ?_⟩
    rw [hdecode, hj]
  · exact Or.inr (Or.inl hen)
  · have hfilterOf : s.filterOf subId = storedFilter s.kv subId := by
      unfold Engine.filterOf
      cases hf : s.filters.get subId with
      | none => rfl
      | some f => exact (h.cache.cached hf).2 (by rw [hr]; rfl)
    refine Or.inr (Or.inr ⟨m, ?_, ?_⟩)
    · rw [htopic, ht r hr]
      exact hcar.log hm
    · rw [storedFilter_same hr hr' hfilter, ← hfilterOf]
      exact hrej

theorem Intact.explained {subId seq : Nat} {r' : SubscriptionRecord} {c' : CursorRecord}
    (hr' : (crashStep s e).2.kv.subs.get subId = some r')
    (hc' : (crashStep s e).2.kv.cursors.get subId = some c') (hattach : c'.attachSeq < seq)
    (hdone : c'.isDone seq = true) :
    Explained (l ++ [Run.transition crashStep s e]) (crashStep s e).2 subId r' seq := by
  have hcar := carried_step h.wf h.cache hk.allowed
  rcases hcar.marks hc' with ⟨c, hc, ha, hnew⟩ | ⟨n, rfl⟩
  · have hsome : (s.kv.subs.get subId).isSome :=
      (h.cache.consistent.cursors subId).mp (Option.isSome_of_eq_some hc)
    obtain ⟨r, hr, htopic, hfilter⟩ := hcar.record hsome hr'
    rcases hnew seq hdone with hold | hcause
    · rw [ha.attachSeq] at hattach
      rcases h.done hr hc hattach hold with hack | ⟨en, hen, hsub⟩ | ⟨m, hm, hrej⟩
      · exact Or.inl (hack.append _)
      · exact Or.inr (Or.inl ⟨en, hcar.logged.subset hen, hsub⟩)
      · refine Or.inr (Or.inr ⟨m, ?_, ?_⟩)
        · rw [htopic]
          exact hcar.log hm
        · rw [storedFilter_same hr hr' hfilter]
          exact hrej
    · exact h.explained_of_cause hk hr hr' htopic hfilter hcause
  · -- a new subscription has nothing done after the point it attached at
    have hle := (CursorRecord.fresh_isDone _ _ _).mp hdone
    exact absurd hattach (not_lt.mpr hle)

theorem Intact.step : Intact (l ++ [Run.transition crashStep s e]) (crashStep s e).2 := by
  have hcar := carried_step h.wf h.cache hk.allowed
  have hmem : ∀ {tr}, tr ∈ l ++ [Run.transition crashStep s e] →
      tr ∈ l ∨ tr = Run.transition crashStep s e := by
    intro tr htr
    simpa using htr
  refine ⟨hcar.wf, hcar.cache, h.explained hk, fun tr htr topicId seq m hpub => ?_,
    fun tr htr subId seq hack => ?_, ?_⟩
  · rcases hmem htr with htr | rfl
    · obtain ⟨nowMs, expireAtMs, hm⟩ := h.holds tr htr topicId seq m hpub
      exact ⟨nowMs, expireAtMs, hcar.log hm⟩
    · obtain ⟨nowMs, topic, ms, seqs, he, hreply, hzip⟩ := hpub
      change e = _ at he
      subst he
      exact step_published (Option.some.inj hreply) (seq, m) hzip
  · rcases hmem htr with htr | rfl
    · obtain ⟨c, hc, hdone⟩ := h.acked tr htr subId seq hack
      obtain ⟨c', hc', ha⟩ := hcar.cursor hc
      exact ⟨c', hc', ha.done seq hdone⟩
    · obtain ⟨i, ackIds, he, hcall, hhit, hreply⟩ := hack
      change e = _ at he
      subst he
      exact step_ackDone h.wf hcall hhit (Option.some.inj hreply)
  · refine List.pairwise_append.mpr ⟨h.silent, List.pairwise_singleton _ _, fun a ha b hb => ?_⟩
    rw [List.mem_singleton] at hb
    subst hb
    intro subId seq hack hout
    obtain ⟨c, hc, hdone⟩ := h.acked a ha subId seq hack
    obtain ⟨c', hc', hopen⟩ := hout.open h.wf
    rw [hc, Option.some.injEq] at hc'
    rw [← hc', hdone] at hopen
    cases hopen

end Step

theorem intact_start : Intact [] start where
  wf := wellFormed_start
  cache := cacheStored_final []
  done h := by cases h
  holds _ h := by cases h
  acked _ h := by cases h
  silent := .nil

theorem intact_final {es : List Event} (h : ∀ tr ∈ crashHistory es, GivesNothingUp tr) :
    Intact (crashHistory es) (Run.final crashStep start es) := by
  refine Run.history_inv (C := fun _ tr => GivesNothingUp tr) (fun l s e hl hk => hl.step hk)
    intact_start fun l tr l' hl => h tr ?_
  rw [crashHistory, hl]
  exact List.mem_append_right _ List.mem_cons_self

def givesNothingUp (tr : CrashTransition) : Bool :=
  tr.input.allowed && ownIds tr.pre.kv tr.input.input.op

theorem GivesNothingUp.of_check {tr : CrashTransition} (h : givesNothingUp tr = true) :
    GivesNothingUp tr := by
  obtain ⟨hallowed, hown⟩ := Bool.and_eq_true_iff.mp h
  have hids : OwnIds (Run.transition OpenPubusb.step tr.pre tr.input.input) := .of_check hown
  exact ⟨hallowed, hids.ack⟩

/-- Wherever the process is killed, nothing that was published is lost and no answered
acknowledgement is undone. -/
theorem nothing_lost_at_any_cut (es : List Event)
    (h : ∀ tr ∈ crashHistory es, GivesNothingUp tr) : NothingLost es := by
  have hfinal := intact_final h
  refine ⟨fun tr htr subId r seq m hr hpub => ?_, fun l tr l' hsplit subId seq hack => ?_⟩
  · have hholds := hfinal.holds tr htr r.topicId seq m hpub
    have hsome := (hfinal.cache.consistent.cursors subId).mpr (Option.isSome_of_eq_some hr)
    obtain ⟨c, hc⟩ := Option.isSome_iff_exists.mp hsome
    refine ⟨hholds, c, hc, fun hattach hacc hnoack hnodead => ?_⟩
    rw [Bool.eq_false_iff]
    intro hdone
    obtain ⟨nowMs, expireAtMs, hrow⟩ := hholds
    rcases hfinal.done hr hc hattach hdone with hack | hdead | ⟨m', hm', hrej⟩
    · exact hnoack hack
    · exact hnodead hdead
    · rw [hrow, Option.some.injEq] at hm'
      rw [← hm'] at hrej
      have hacc' : accepts (storedFilter (Run.final crashStep start es).kv subId) m.attributes =
        false := hrej
      rw [hacc] at hacc'
      cases hacc'
  · have htr : tr ∈ crashHistory es := by
      rw [hsplit]
      exact List.mem_append_right _ List.mem_cons_self
    refine ⟨hfinal.acked tr htr subId seq hack, fun tr' htr' => ?_⟩
    have hpairs := hfinal.silent
    rw [hsplit, List.pairwise_append, List.pairwise_cons] at hpairs
    exact hpairs.2.1.1 tr' htr' subId seq hack

/-- The process is killed with the row of the first lease written, with a seq taken for
which no message is stored, and after an acknowledgement of that lease was answered. -/
def killedThrice : List Event :=
  (setup {}).map .run ++
  [.cut (pullA 10) 1,
   .cut ⟨20, .publish "projects/p/topics/top1" [⟨[4], ∅, ""⟩]⟩ 1,
   .run ⟨30, .publish "projects/p/topics/top1" [⟨[5], ∅, ""⟩]⟩,
   .run ⟨40, .acknowledge "projects/p/subscriptions/subA" [encodeAckId 2 1 1]⟩,
   .cut (pullA 50) 0,
   .run (pullA 60)]

theorem nothing_lost_killed_thrice :
    (crashHistory killedThrice).all givesNothingUp = true ∧ NothingLost killedThrice := by
  have hall : (crashHistory killedThrice).all givesNothingUp = true := by decide +kernel
  exact ⟨hall, nothing_lost_at_any_cut killedThrice fun tr htr =>
    .of_check (List.all_eq_true.mp hall tr htr)⟩

end Runs

end OpenPubusb
