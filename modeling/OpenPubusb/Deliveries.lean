import OpenPubusb.RefineOps

/-! The deliveries of one message along a run of the service. -/

namespace OpenPubusb

instance (t : LeaseTable) (ackId : String) (subId seq : Nat) :
    Decidable (t.Names ackId subId seq) :=
  decidable_of_iff (∃ lease ∈ t.get subId seq, decodeAckId ackId = some (subId, seq, lease.generation))
    ⟨fun ⟨l, hl, h⟩ => ⟨l, hl, h⟩, fun ⟨l, hl, h⟩ => ⟨l, hl, h⟩⟩

instance (t : LeaseTable) (ackIds : List String) (subId seq : Nat) :
    Decidable (Hit t ackIds subId seq) :=
  inferInstanceAs (Decidable (∃ ackId ∈ ackIds, t.Names ackId subId seq))

/-- The reply hands out `d` as a delivery of `(subId, seq)`. -/
def Delivers (tr : Transition) (subId seq : Nat) (d : Delivered) : Prop :=
  ∃ ds, tr.reply = .delivered subId ds ∧ d ∈ ds ∧ d.seq = seq

/-- The message was delivered by one of the transitions. -/
def DeliveredIn (trs : List Transition) (subId seq : Nat) : Prop :=
  ∃ tr ∈ trs, ∃ d, Delivers tr subId seq d

def deliveryOf (tr : Transition) (subId seq : Nat) : Option Delivered :=
  match tr.reply with
  | .delivered i ds => if i = subId then ds.find? (fun d => d.seq = seq) else none
  | _ => none

theorem delivers_of_deliveryOf {tr : Transition} {subId seq : Nat} {d : Delivered}
    (h : deliveryOf tr subId seq = some d) : Delivers tr subId seq d := by
  unfold deliveryOf at h
  split at h
  · rename_i i ds hr
    split_ifs at h with hi
    have hseq := List.find?_some h
    exact ⟨ds, hi ▸ hr, List.mem_of_find?_eq_some h, by simpa using hseq⟩
  · cases h

theorem not_delivers_of_deliveryOf {tr : Transition} {subId seq : Nat}
    (h : deliveryOf tr subId seq = none) (d : Delivered) : ¬ Delivers tr subId seq d := by
  rintro ⟨ds, hr, hmem, hseq⟩
  simp only [deliveryOf, hr, if_true, List.find?_eq_none] at h
  exact h d hmem (by simpa using hseq)

/-- The lease call reaches no message that its dead-letter topic cannot take. -/
def Forwardable (tr : Transition) : Prop :=
  ∀ a c, scanArgs tr.pre tr.input = some a → tr.pre.kv.cursors.get a.subId = some c →
    NoneUndeliverable a tr.pre c

theorem Forwardable.not_refused {tr : Transition} (h : Forwardable tr) (subId : Nat) :
    ¬ Refused tr.pre tr.input subId := by
  rintro ⟨a, c, hargs, rfl, hc, hne⟩
  exact hne (h a c hargs hc)

/-- No id of the call was issued for another subscription. -/
structure OwnIds (tr : Transition) : Prop where
  ack : NoForeignAck tr.pre tr.input.op
  modify : NoForeignModify tr.pre tr.input.op

/-- Whether every id was issued for the subscription. -/
def issuedFor (subId : Nat) (ackIds : List String) : Bool :=
  ackIds.all fun ackId => (decodeAckId ackId).all fun k => k.1 = subId

theorem eq_of_issuedFor {subId : Nat} {ackIds : List String} (h : issuedFor subId ackIds = true)
    {ackId : String} (hmem : ackId ∈ ackIds) {t : LeaseTable} {j q : Nat}
    (hn : t.Names ackId j q) : j = subId := by
  obtain ⟨l, _, hd⟩ := hn
  have hall := List.all_eq_true.mp h ackId hmem
  rw [hd] at hall
  simpa using hall

def ownIds (kv : Kv) (op : Op) : Bool :=
  (ackCall kv op).all (fun c => issuedFor c.1 c.2) &&
    (modifyCall kv op).all (fun c => issuedFor c.1 c.2.1)

theorem OwnIds.of_check {tr : Transition} (h : ownIds tr.pre.kv tr.input.op = true) :
    OwnIds tr := by
  obtain ⟨hack, hmodify⟩ := Bool.and_eq_true_iff.mp h
  refine ⟨fun i ackIds hcall ackId hmem j q hn => ?_, fun i ackIds secs hcall ackId hmem j q hn => ?_⟩
  · rw [hcall] at hack
    exact eq_of_issuedFor hack hmem hn
  · rw [hcall] at hmodify
    exact eq_of_issuedFor hmodify hmem hn

section Steps

variable {s : Engine} {i : Input} {reply : Reply} {t : Engine} {subId seq : Nat} {e : Effect}

theorem leaseCall_known (hwf : s.WellFormed) {op : Op} {secs : Int}
    (h : leaseCall s op = some (subId, secs)) : subId ≤ s.kv.counter := by
  cases op with
  | pull name n =>
    simp only [leaseCall] at h
    cases hg : SubscriptionStore.get s.kv name with
    | ok r =>
      simp only [hg, Option.some.injEq, Prod.mk.injEq] at h
      rw [← h.1]
      exact (hwf.kv.record (hwf.get_ok hg)).2
    | error e =>
      simp only [hg] at h
      cases h
  | leaseForStream sid =>
    obtain ⟨info, hinfo, heq⟩ := Option.map_eq_some_iff.mp h
    obtain ⟨st, hst, rfl⟩ := Option.map_eq_some_iff.mp hinfo
    simp only [Prod.mk.injEq] at heq
    rw [← heq.1]
    exact (hwf.session hst).2.1
  | _ => cases h

theorem SlotStep.delivered_of_granted (h : SlotStep s i reply t subId seq e) {r : DeliveryRecord}
    (he : e = .granted r) (hf : ¬ Refused s i subId) :
    ∃ ds d, reply = .delivered subId ds ∧ d ∈ ds ∧ d.seq = seq :=
  (h.granted he).resolve_right fun hfailed => hf hfailed.2

theorem SlotStep.saved_of_forwarded (h : SlotStep s i reply t subId seq e) {saved : Bool}
    (he : e = .forwarded saved) (hf : ¬ Refused s i subId) : saved = true := by
  have hc := h.cause
  rw [he] at hc
  by_contra hsaved
  exact hf (hc.2.1 (Bool.not_eq_true _ ▸ hsaved)).2

theorem SlotStep.not_marked (h : SlotStep s i reply t subId seq e) (hown : NoForeignAck s i.op) :
    e ≠ .marked := by
  rintro rfl
  obtain ⟨ackIds, j, hcall, hne, ackId, hmem, hn⟩ := h.cause
  exact hne (hown subId ackIds hcall ackId hmem j seq hn)

theorem SlotStep.not_stolen (h : SlotStep s i reply t subId seq e) (hown : NoForeignAck s i.op) :
    e ≠ .stolen := by
  rintro rfl
  obtain ⟨j, ackIds, hcall, hne, ackId, hmem, hn⟩ := h.cause
  exact hne (hown j ackIds hcall ackId hmem subId seq hn).symm

end Steps

/-- A delivery hands out a message of the log that was open and passes the filter. -/
theorem LeaseDone.delivered {a : LeaseArgs} {s u : Engine} {ds : List Delivered} {d : Delivered}
    (h : LeaseDone a s u ds) (hd : d ∈ ds) :
    s.kv.pending a.subId d.seq = true ∧ s.kv.msg.get ⟨a.topicId, d.seq⟩ = some d.message ∧
      accepts a.filter d.message.attributes = true := by
  obtain ⟨e, hen, _, hout⟩ := h.slots d.seq
  have hmem : d ∈ deliveriesOf ds d.seq := List.mem_filter.mpr ⟨hd, by simp⟩
  have hnil : deliveriesOf ([] : List Delivered) d.seq = [] := rfl
  cases e with
  | granted r =>
    obtain ⟨_, _, _, m, hm, hacc, hds⟩ := hout
    rw [hds, hnil, List.nil_append, List.mem_singleton] at hmem
    have hmsg : d.message = m := by rw [hmem]; rfl
    refine ⟨hen.1, ?_, ?_⟩
    · rw [hmsg]
      exact mem_scanPrefix.mp hm
    · rw [hmsg]
      exact hacc
  | forwarded saved =>
    rw [hout.2.1] at hmem
    cases hmem
  | idle =>
    rw [hout.1] at hmem
    cases hmem
  | retired dropped =>
    rw [hout.2.2.1] at hmem
    cases hmem
  | _ => exact hout.elim

section Runs

variable {is : List Input} {tr : Transition} {subId seq : Nat} {d : Delivered}

theorem transition_eq_of_mem (h : tr ∈ history is) :
    tr.reply = (step tr.pre tr.input).1 ∧ tr.post = (step tr.pre tr.input).2 := by
  have hv := Run.valid_of_mem_trace h
  exact ⟨congrArg Run.Transition.reply hv, congrArg Run.Transition.post hv⟩

theorem Delivers.pending (hd : Delivers tr subId seq d) (h : tr ∈ history is) :
    tr.pre.kv.pending subId seq = true := by
  obtain ⟨ds, hreply, hmem, rfl⟩ := hd
  rw [(transition_eq_of_mem h).1] at hreply
  obtain ⟨a, u, hl⟩ := step_leased (wellFormed_pre h) hreply
  have hp := (hl.done.delivered hmem).1
  rw [hl.sub] at hp
  exact hp

theorem mem_inputs (h : tr ∈ history is) : tr.input ∈ is := by
  have hmap : (history is).map Run.Transition.input = is := Run.map_input_trace start is
  rw [← hmap]
  exact List.mem_map_of_mem h

theorem refines_of_mem (h : tr ∈ history is) (hown : NoForeignModify tr.pre tr.input.op) :
    Refines tr.pre tr.input tr.reply tr.post := by
  obtain ⟨hr, hp⟩ := transition_eq_of_mem h
  rw [hr, hp]
  exact step_refines (wellFormed_pre h) hown

theorem pairwise_clock (h : (is.map Input.nowMs).Pairwise (· ≤ ·)) :
    (history is).Pairwise (fun a b => a.input.nowMs ≤ b.input.nowMs) := by
  rw [← Run.map_input_trace start is, List.map_map, List.pairwise_map] at h
  exact h

theorem Delivers.granted (h : tr ∈ history is) (hown : NoForeignModify tr.pre tr.input.op)
    (hd : Delivers tr subId seq d) :
    ∃ r, SlotStep tr.pre tr.input tr.reply tr.post subId seq (.granted r) ∧
      d.ackId = encodeAckId subId seq r.attempts ∧ d.deliveryAttempt = r.attempts := by
  obtain ⟨ds, hr, hmem, hseq⟩ := hd
  obtain ⟨e, he⟩ := (refines_of_mem h hown).slots subId seq
  obtain ⟨r, rfl, _, hid, hatt⟩ := he.delivered hr hmem hseq
  exact ⟨r, he, hid, hatt⟩

theorem split_between {l between l' : List Transition} {tr₁ tr₂ : Transition}
    (h : history is = l ++ tr₁ :: (between ++ tr₂ :: l')) :
    ∃ js, between = Run.trace step tr₁.post js ∧ tr₂.pre = Run.final step tr₁.post js := by
  obtain ⟨_, _, is₂, _, _, _, hrest⟩ := Run.trace_eq_append h
  obtain ⟨js, j, _, _, hbetween, htr₂, _⟩ := Run.trace_eq_append hrest.symm
  exact ⟨js, hbetween, by rw [htr₂]; rfl⟩

end Runs

theorem not_delivers_of_all {trs : List Transition} {subId seq : Nat}
    (h : trs.all (fun tr => (deliveryOf tr subId seq).isNone) = true) :
    ∀ tr ∈ trs, ∀ d, ¬ Delivers tr subId seq d := by
  intro tr htr
  have hnone := List.all_eq_true.mp h tr htr
  exact not_delivers_of_deliveryOf (Option.isNone_iff_eq_none.mp hnone)

/-- The first of two transitions of a run, and the one after the inputs between them. -/
def firstOf (before : List Input) (i : Input) : Transition :=
  Run.transition step (Run.final step start before) i

def secondOf (before middle : List Input) (i j : Input) : Transition :=
  Run.transition step (Run.final step (firstOf before i).post middle) j

def betweenOf (before middle : List Input) (i : Input) : List Transition :=
  Run.trace step (firstOf before i).post middle

theorem history_split (before middle : List Input) (i j : Input) :
    history (before ++ i :: (middle ++ [j])) = Run.trace step start before ++
      firstOf before i :: (betweenOf before middle i ++ [secondOf before middle i j]) := by
  simp only [history, Run.trace_append, Run.trace, Run.transition, firstOf, secondOf, betweenOf]

def pullAll (nowMs : Int) : Input := ⟨nowMs, .pull "projects/p/subscriptions/subA" 10⟩

def extendA (nowMs seconds : Int) : Input :=
  ⟨nowMs, .modifyAckDeadline "projects/p/subscriptions/subA" [encodeAckId 2 1 1] seconds⟩

theorem Forwardable.of_check {tr : Transition} (h : meetsNoRefusal tr.pre tr.input = true) :
    Forwardable tr :=
  fun _ _ hargs hc => noneUndeliverable_of_meets h hargs hc

end OpenPubusb
