import OpenPubusb.Deliveries

/-! The delivery attempts of a message on a subscription with a dead-letter
policy. The count is carried by the lease or, when that is gone, by the row; as
long as no operation drops both of a message that can still be delivered, the
attempts of its deliveries are `1, 2, 3, ...` up to the limit of the policy. -/

namespace OpenPubusb

def deliveriesAt (tr : Transition) (subId seq : Nat) : List Delivered :=
  match tr.reply with
  | .delivered i ds => if i = subId then deliveriesOf ds seq else []
  | _ => []

/-- The deliveries of one message along a run, in their order. -/
def deliveriesIn (trs : List Transition) (subId seq : Nat) : List Delivered :=
  trs.flatMap fun tr => deliveriesAt tr subId seq

theorem mem_deliveriesAt {tr : Transition} {subId seq : Nat} {d : Delivered} :
    d ∈ deliveriesAt tr subId seq ↔ Delivers tr subId seq d := by
  constructor
  · intro h
    unfold deliveriesAt at h
    split at h
    · rename_i j ds hr
      split_ifs at h with hj
      · obtain ⟨hmem, hseq⟩ := List.mem_filter.mp h
        exact ⟨ds, hj ▸ hr, hmem, by simpa using hseq⟩
      · cases h
    · cases h
  · rintro ⟨ds, hr, hmem, hseq⟩
    simp only [deliveriesAt, hr, if_true]
    exact List.mem_filter.mpr ⟨hmem, by simpa using hseq⟩

/-- The runs that the bound is about, as far as one transition shows: a lease call
finds the policy and the topic of it, and nothing is moved by a seek. -/
structure DeadLetters (subId : Nat) (name : String) (maxAttempts : Int) (tr : Transition) :
    Prop where
  policy : ∀ {secs}, leaseCall tr.pre tr.input.op = some (subId, secs) →
    (reclaimPolicy tr.pre.kv subId).deadLetter = ⟨some name, maxAttempts⟩
  topic : ∀ {secs}, leaseCall tr.pre tr.input.op = some (subId, secs) →
    ∃ dlq, TopicStore.get tr.pre.kv name = .ok dlq
  forwardable : Forwardable tr
  noSeek : ∀ c, seekTarget tr.pre.kv tr.input.op ≠ some (subId, c)

/-- What keeps the attempts from starting over. -/
structure Counting (subId : Nat) (tr : Transition) : Prop where
  own : NoForeignModify tr.pre tr.input.op
  /-- A closed stream tracks nothing that can still be delivered. -/
  close : ∀ {sid st}, tr.input.op = .closeStream sid → tr.pre.streams.sessions.get sid = some st →
    st.info.subId = subId → ∀ q ∈ st.outstanding.keys, tr.pre.kv.pending subId q = false

/-- A message that can still be delivered was not forwarded, and what the slot
remembers is the number `n` of its deliveries. -/
structure Slot.Counted (x : Slot) (n : Nat) (log : List DeadLettered) : Prop where
  log : x.pending = true → log = []
  none : x.pending = true → n = 0 → x.lease = none ∧ x.row = none
  lease : x.pending = true → ∀ l, x.lease = some l → l.attempts = n
  row : x.pending = true → n ≠ 0 → ∃ r, x.row = some r ∧ r.attempts = n

theorem Slot.Counted.due {x : Slot} {n : Nat} {log : List DeadLettered} (h : x.Counted n log)
    (hp : x.pending = true) {policy : ReclaimPolicy} {now : Int} {k : Nat}
    (hdue : x.Due policy now k) : k = n := by
  cases hl : x.lease with
  | some l =>
    simp only [Slot.Due, hl] at hdue
    rw [hdue.2.2]
    exact h.lease hp l hl
  | none =>
    by_cases hn : n = 0
    · have hr := (h.none hp hn).2
      simp only [Slot.Due, hl, hr] at hdue
      omega
    · obtain ⟨r, hr, hattempts⟩ := h.row hp hn
      simp only [Slot.Due, hl, hr] at hdue
      rw [hdue.2, hattempts]

theorem Slot.counted_of_not_pending {x : Slot} (h : x.pending = false) (n : Nat)
    (log : List DeadLettered) : x.Counted n log := by
  have hno : x.pending ≠ true := by simp [h]
  exact ⟨fun hp => absurd hp hno, fun hp => absurd hp hno, fun hp => absurd hp hno,
    fun hp => absurd hp hno⟩

/-- The message arrived on the dead-letter topic as it was published. -/
def ForwardedCopy (tr : Transition) (subId seq : Nat) (name : String) : Prop :=
  ∃ r m dlq en copy, tr.pre.kv.subs.get subId = some r ∧
    tr.pre.kv.msg.get ⟨r.topicId, seq⟩ = some m ∧ TopicStore.get tr.pre.kv name = .ok dlq ∧
    logOf tr.post.deadLettered subId seq = [en] ∧ en.topicId = dlq.id ∧
    tr.post.kv.msg.get ⟨dlq.id, en.copySeq⟩ = some copy ∧ copy.payload = m.payload ∧
    copy.orderingKey = m.orderingKey

section Steps

variable {s : Engine} {i : Input} {reply : Reply} {t : Engine} {subId seq : Nat} {e : Effect}
  {n : Nat} {name : String} {maxAttempts : Int}

theorem SlotStep.deliveriesAt_eq (h : SlotStep s i reply t subId seq e)
    (hfwd : Forwardable ⟨s, i, reply, t⟩) :
    (∃ r d, e = .granted r ∧ deliveriesAt ⟨s, i, reply, t⟩ subId seq = [d] ∧
        d.deliveryAttempt = r.attempts) ∨
      (∀ r, e ≠ .granted r) ∧ deliveriesAt ⟨s, i, reply, t⟩ subId seq = [] := by
  by_cases hg : ∃ r, e = .granted r
  · obtain ⟨r, hr⟩ := hg
    obtain ⟨ds, d, hreply, hmem, hseq⟩ := h.delivered_of_granted hr (hfwd.not_refused subId)
    obtain ⟨r', hr', hone, _, hattempt⟩ := h.delivered hreply hmem hseq
    rw [hr] at hr'
    cases hr'
    refine Or.inl ⟨r, d, hr, ?_, hattempt⟩
    simp only [deliveriesAt, hreply, if_true, hone]
  · refine Or.inr ⟨fun r hr => hg ⟨r, hr⟩, List.eq_nil_iff_forall_not_mem.mpr fun d hd => ?_⟩
    obtain ⟨ds, hreply, hmem, hseq⟩ := mem_deliveriesAt.mp hd
    obtain ⟨r, hr, _⟩ := h.delivered hreply hmem hseq
    exact hg ⟨r, hr⟩

theorem SlotStep.granted_attempts {r : DeliveryRecord} (h : SlotStep s i reply t subId seq (.granted r))
    (hx : (s.slot subId seq).Counted n (logOf s.deadLettered subId seq))
    (hdl : DeadLetters subId name maxAttempts ⟨s, i, reply, t⟩) (hpos : 0 < maxAttempts)
    (hmax : maxAttempts ≤ i32Max) : r.attempts = n + 1 ∧ ((n + 1 : Nat) : Int) ≤ maxAttempts := by
  obtain ⟨hp, k, hdue, hk, _⟩ := h.enabled
  obtain ⟨secs, hcall, _, ⟨m, hm, hallow⟩, _⟩ := h.cause
  have hkn := hx.due hp hdue
  have hdead := hdl.policy hcall
  obtain ⟨dlq, htopic⟩ := hdl.topic hcall
  have hlt : ((m : Nat) : Int) < maxAttempts := by
    by_contra hge
    have hshould : shouldDeadLetter m (reclaimPolicy s.kv subId).deadLetter = true := by
      rw [hdead]
      simp only [shouldDeadLetter, Option.isSome_some, Bool.true_and, Bool.and_eq_true,
        decide_eq_true_eq]
      omega
    obtain ⟨name', err, hname, hnf⟩ := hallow hshould
    rw [hdead] at hname
    cases hname
    rw [htopic] at hnf
    cases hnf
  simp only [i32Max] at hmax
  have hm' : r.attempts = m + 1 := by
    rw [hm, satSuccU32_of_lt]
    simp only [u32Max]
    omega
  have hk' : r.attempts = min u32Max (k + 1) := hk
  simp only [u32Max] at hk'
  omega

theorem SlotStep.counted (h : SlotStep s i reply t subId seq e) (hg : ∀ r, e ≠ .granted r)
    (hx : (s.slot subId seq).Counted n (logOf s.deadLettered subId seq))
    (hknown : s.kv.counter < subId → (s.slot subId seq).lease = none ∧
      (s.slot subId seq).row = none ∧ n = 0 ∧ logOf s.deadLettered subId seq = [])
    (hdl : DeadLetters subId name maxAttempts ⟨s, i, reply, t⟩)
    (hcount : Counting subId ⟨s, i, reply, t⟩) :
    (t.slot subId seq).Counted n (logOf t.deadLettered subId seq) := by
  have hcause := h.cause
  have hset : ∀ (d : Int) (l : DeliveryRecord), (s.slot subId seq).pending = true →
      (s.slot subId seq).lease.map (fun r => { r with deadlineMs := d }) = some l →
        l.attempts = n := by
    intro d l hp hl
    obtain ⟨l₀, hl₀, rfl⟩ := Option.map_eq_some_iff.mp hl
    exact hx.lease hp l₀ hl₀
  have hlog : (∀ saved, e ≠ .forwarded saved) →
      logOf t.deadLettered subId seq = logOf s.deadLettered subId seq := h.log
  rw [h.slot]
  cases e with
  | granted r => exact absurd rfl (hg r)
  | forwarded saved =>
    refine Slot.counted_of_not_pending ?_ _ _
    simp [Effect.apply, h.saved_of_forwarded rfl (hdl.forwardable.not_refused subId)]
  | idle =>
    rw [hlog fun _ h => by cases h]
    exact hx
  | retired dropped => exact Slot.counted_of_not_pending rfl _ _
  | acked => exact Slot.counted_of_not_pending rfl _ _
  | marked => exact Slot.counted_of_not_pending rfl _ _
  | stolen =>
    rw [hlog fun _ h => by cases h]
    exact ⟨hx.log, fun hp hn => ⟨rfl, (hx.none hp hn).2⟩, fun _ _ h => (by cases h), hx.row⟩
  | modified d =>
    rw [hlog fun _ h => by cases h]
    obtain ⟨l, hl⟩ := Option.ne_none_iff_exists'.mp h.enabled
    refine ⟨hx.log, fun hp hn => ?_, fun hp l' hl' => hset d l' hp hl', fun hp hn => ?_⟩
    · rw [(hx.none hp hn).1] at hl
      cases hl
    · refine ⟨{ l with deadlineMs := d }, ?_, hx.lease hp l hl⟩
      simp only [Effect.apply, hl, Option.map_some]
  | dropped limit =>
    rw [hlog fun _ h => by cases h]
    exact ⟨hx.log, fun hp hn => ⟨rfl, (hx.none hp hn).2⟩, fun _ _ h => (by cases h), hx.row⟩
  | postponed limit due =>
    rw [hlog fun _ h => by cases h]
    refine ⟨hx.log, fun hp hn => ?_, fun hp l' hl' => hset due l' hp hl', hx.row⟩
    obtain ⟨hl, hr⟩ := hx.none hp hn
    exact ⟨by simp only [Effect.apply, hl, Option.map_none], hr⟩
  | released =>
    obtain ⟨sid, st, hop, hst, hsub, hmem⟩ := hcause
    exact Slot.counted_of_not_pending (hcount.close hop hst hsub seq hmem) _ _
  | reset p =>
    obtain ⟨c, htarget, _⟩ := hcause
    exact absurd htarget (hdl.noSeek c)
  | recovered =>
    rw [hlog fun _ h => by cases h]
    refine ⟨hx.log, fun hp hn => ?_, fun hp l hl => ?_, hx.row⟩
    · exact ⟨(hx.none hp hn).2, (hx.none hp hn).2⟩
    · by_cases hn : n = 0
      · have hnone : none = some l := (hx.none hp hn).2.symm.trans hl
        cases hnone
      · obtain ⟨r, hr, hattempts⟩ := hx.row hp hn
        have hrl : some r = some l := hr.symm.trans hl
        cases hrl
        exact hattempts
  | attached p =>
    rw [hlog fun _ h => by cases h]
    obtain ⟨hl, hr, hn, hempty⟩ := hknown hcause
    exact ⟨fun _ => hempty, fun _ _ => ⟨hl, hr⟩,
      fun _ l h => (by rw [Effect.apply, hl] at h; cases h), fun _ h => absurd hn h⟩

theorem SlotStep.log_cases (h : SlotStep s i reply t subId seq e)
    (hx : (s.slot subId seq).Counted n (logOf s.deadLettered subId seq))
    (hdl : DeadLetters subId name maxAttempts ⟨s, i, reply, t⟩) :
    logOf t.deadLettered subId seq = logOf s.deadLettered subId seq ∨
      ((∀ r, e ≠ .granted r) ∧ ForwardedCopy ⟨s, i, reply, t⟩ subId seq name) := by
  by_cases hf : ∃ saved, e = .forwarded saved
  · obtain ⟨saved, rfl⟩ := hf
    obtain ⟨⟨secs, hcall⟩, _, r, m, en, name', dlq, copy, hr, hm, hname, hdlq, hid, hlog, hcopy,
      hpayload, hkey⟩ := h.cause
    rw [hx.log h.enabled.1, List.nil_append] at hlog
    have hdead : (reclaimPolicy s.kv subId).deadLetter = ⟨some name, maxAttempts⟩ :=
      hdl.policy hcall
    rw [hdead] at hname
    cases hname
    rw [hid] at hcopy
    exact Or.inr ⟨fun _ h => (by cases h),
      r, m, dlq, en, copy, hr, hm, hdlq, hlog, hid, hcopy, hpayload, hkey⟩
  · exact Or.inl (h.log fun saved hs => hf ⟨saved, hs⟩)

theorem SlotStep.unknown (h : SlotStep s i reply t subId seq e) (hwf : s.WellFormed)
    (hknown : s.kv.counter < subId) (hl : (s.slot subId seq).lease = none)
    (hr : (s.slot subId seq).row = none) :
    (t.slot subId seq).lease = none ∧ (t.slot subId seq).row = none ∧ (∀ r, e ≠ .granted r) ∧
      ∀ saved, e ≠ .forwarded saved := by
  have hcall : ∀ secs, leaseCall s i.op ≠ some (subId, secs) := fun secs hc =>
    absurd (leaseCall_known hwf hc) (not_le.mpr hknown)
  rw [h.slot]
  have hen := h.enabled
  have hcause := h.cause
  cases e with
  | granted r =>
    obtain ⟨secs, hc, _⟩ := hcause
    exact absurd hc (hcall secs)
  | forwarded saved =>
    obtain ⟨⟨secs, hc⟩, _⟩ := hcause
    exact absurd hc (hcall secs)
  | modified d => exact absurd hl hen
  | acked => exact absurd hl hen
  | dropped limit =>
    obtain ⟨l, hl', _⟩ := hen
    rw [hl] at hl'
    cases hl'
  | postponed limit due =>
    obtain ⟨_, l, hl', _⟩ := hen
    rw [hl] at hl'
    cases hl'
  | retired dropped =>
    refine ⟨hl, ?_, fun _ h => (by cases h), fun _ h => (by cases h)⟩
    cases dropped with
    | true => rfl
    | false => exact hr
  | idle => exact ⟨hl, hr, fun _ h => (by cases h), fun _ h => (by cases h)⟩
  | marked => exact ⟨hl, rfl, fun _ h => (by cases h), fun _ h => (by cases h)⟩
  | stolen => exact ⟨rfl, hr, fun _ h => (by cases h), fun _ h => (by cases h)⟩
  | released => exact ⟨rfl, rfl, fun _ h => (by cases h), fun _ h => (by cases h)⟩
  | reset p => exact ⟨rfl, rfl, fun _ h => (by cases h), fun _ h => (by cases h)⟩
  | recovered => exact ⟨hr, hr, fun _ h => (by cases h), fun _ h => (by cases h)⟩
  | attached p => exact ⟨hl, hr, fun _ h => (by cases h), fun _ h => (by cases h)⟩

end Steps

/-- What a run with the transitions `l` has reached. -/
structure Tally (subId seq : Nat) (name : String) (maxAttempts : Int) (l : List Transition)
    (s : Engine) : Prop where
  wf : s.WellFormed
  unknown : s.kv.counter < subId → (s.slot subId seq).lease = none ∧
    (s.slot subId seq).row = none ∧ (deliveriesIn l subId seq).length = 0 ∧
    logOf s.deadLettered subId seq = []
  counted : (s.slot subId seq).Counted (deliveriesIn l subId seq).length
    (logOf s.deadLettered subId seq)
  attempts : (deliveriesIn l subId seq).map Delivered.deliveryAttempt =
    List.range' 1 (deliveriesIn l subId seq).length
  bound : ((deliveriesIn l subId seq).length : Int) ≤ maxAttempts
  once : (logOf s.deadLettered subId seq).length ≤ 1
  past : ∀ tr ∈ l, logOf tr.post.deadLettered subId seq ≠ [] →
    logOf s.deadLettered subId seq ≠ []
  copies : ∀ tr ∈ l, logOf tr.post.deadLettered subId seq ≠ logOf tr.pre.deadLettered subId seq →
    ForwardedCopy tr subId seq name
  closed : l.Pairwise fun a b => logOf a.post.deadLettered subId seq ≠ [] →
    ∀ d, ¬ Delivers b subId seq d

section Runs

variable {is : List Input} {subId seq : Nat} {name : String} {maxAttempts : Int}

theorem tally_start (hpos : 0 < maxAttempts) : Tally subId seq name maxAttempts [] start where
  wf := wellFormed_start
  unknown _ := ⟨rfl, rfl, rfl, rfl⟩
  counted := Slot.counted_of_not_pending rfl _ _
  attempts := rfl
  bound := hpos.le
  once := Nat.zero_le _
  past _ h := by cases h
  copies _ h := by cases h
  closed := .nil

theorem Tally.step {l : List Transition} {s : Engine} {i : Input}
    (h : Tally subId seq name maxAttempts l s) (hpos : 0 < maxAttempts) (hmax : maxAttempts ≤ i32Max)
    (hdl : DeadLetters subId name maxAttempts (Run.transition OpenPubusb.step s i))
    (hcount : Counting subId (Run.transition OpenPubusb.step s i)) :
    Tally subId seq name maxAttempts (l ++ [Run.transition OpenPubusb.step s i])
      (OpenPubusb.step s i).2 := by
  have href : Refines s i (OpenPubusb.step s i).1 (OpenPubusb.step s i).2 :=
    step_refines h.wf hcount.own
  obtain ⟨e, he⟩ := href.slots subId seq
  have happ : deliveriesIn (l ++ [Run.transition OpenPubusb.step s i]) subId seq =
      deliveriesIn l subId seq ++ deliveriesAt (Run.transition OpenPubusb.step s i) subId seq := by
    simp only [deliveriesIn, List.flatMap_append, List.flatMap_cons, List.flatMap_nil,
      List.append_nil]
  have hat : (∃ r d, e = .granted r ∧
        deliveriesAt (Run.transition OpenPubusb.step s i) subId seq = [d] ∧
        d.deliveryAttempt = r.attempts) ∨ (∀ r, e ≠ .granted r) ∧
        deliveriesAt (Run.transition OpenPubusb.step s i) subId seq = [] :=
    he.deliveriesAt_eq hdl.forwardable
  have hlog : logOf (OpenPubusb.step s i).2.deadLettered subId seq =
        logOf s.deadLettered subId seq ∨ ((∀ r, e ≠ .granted r) ∧
      ForwardedCopy (Run.transition OpenPubusb.step s i) subId seq name) :=
    he.log_cases h.counted hdl
  have hgrown : logOf s.deadLettered subId seq ≠ [] →
      logOf (OpenPubusb.step s i).2.deadLettered subId seq ≠ [] := by
    intro hne
    rcases hlog with hlog | ⟨_, _, _, _, _, _, _, _, _, hlog, _⟩
    · rw [hlog]
      exact hne
    · exact fun hnil => List.cons_ne_nil _ _ (hlog.symm.trans hnil)
  have hcounted : ((OpenPubusb.step s i).2.slot subId seq).Counted
        (deliveriesIn (l ++ [Run.transition OpenPubusb.step s i]) subId seq).length
        (logOf (OpenPubusb.step s i).2.deadLettered subId seq) ∧
      (deliveriesIn (l ++ [Run.transition OpenPubusb.step s i]) subId seq).map
        Delivered.deliveryAttempt =
        List.range' 1 (deliveriesIn (l ++ [Run.transition OpenPubusb.step s i]) subId seq).length ∧
      ((deliveriesIn (l ++ [Run.transition OpenPubusb.step s i]) subId seq).length : Int) ≤
        maxAttempts := by
    rcases hat with ⟨r, d, rfl, hone, hattempt⟩ | ⟨hg, hnone⟩
    · obtain ⟨hr, hle⟩ := he.granted_attempts h.counted hdl hpos hmax
      have hsame := hlog.resolve_right fun hf => hf.1 r rfl
      rw [happ, hone, List.length_append, List.length_singleton]
      refine ⟨?_, ?_, hle⟩
      · rw [he.slot, hsame]
        refine ⟨fun _ => h.counted.log he.enabled.1, fun _ hn => absurd hn (Nat.succ_ne_zero _),
          fun _ x hx => ?_, fun _ _ => ⟨r, rfl, hr⟩⟩
        cases hx
        exact hr
      · rw [List.map_append, h.attempts, List.map_singleton, hattempt, hr, List.range'_concat,
          Nat.one_mul, Nat.add_comm 1]
    · rw [happ, hnone, List.append_nil]
      refine ⟨he.counted hg h.counted (fun hlt => ?_) hdl hcount, h.attempts, h.bound⟩
      exact h.unknown hlt
  refine ⟨href.wf, fun hlt => ?_, hcounted.1, hcounted.2.1, hcounted.2.2, ?_, fun tr htr hne => ?_,
    fun tr htr hne => ?_, ?_⟩
  · obtain ⟨hl, hr, hlen, hempty⟩ := h.unknown (href.counter.trans_lt hlt)
    obtain ⟨hl', hr', hg, hf⟩ := he.unknown h.wf (href.counter.trans_lt hlt) hl hr
    obtain ⟨_, hnone⟩ := hat.resolve_left fun ⟨r, _, hr, _⟩ => hg r hr
    rw [happ, hnone, List.append_nil, he.log hf]
    exact ⟨hl', hr', hlen, hempty⟩
  · rcases hlog with hlog | ⟨_, _, _, _, _, _, _, _, _, hlog, _⟩
    · rw [hlog]
      exact h.once
    · exact le_of_eq (congrArg List.length hlog)
  · rcases List.mem_append.mp htr with htr | htr
    · exact hgrown (h.past tr htr hne)
    · rw [List.mem_singleton.mp htr] at hne
      exact hne
  · rcases List.mem_append.mp htr with htr | htr
    · exact h.copies tr htr hne
    · rw [List.mem_singleton.mp htr] at hne ⊢
      exact (hlog.resolve_left hne).2
  · refine List.pairwise_append.mpr ⟨h.closed, List.pairwise_singleton _ _, ?_⟩
    intro a ha b hb hne d hd
    rw [List.mem_singleton.mp hb] at hd
    have hempty : logOf s.deadLettered subId seq = [] := by
      have hmem := mem_deliveriesAt.mpr hd
      rcases hat with ⟨r, _, rfl, _⟩ | ⟨_, hnone⟩
      · exact h.counted.log he.enabled.1
      · rw [hnone] at hmem
        cases hmem
    exact h.past a ha hne hempty

theorem attempts_counted_and_bounded (hpos : 0 < maxAttempts) (hmax : maxAttempts ≤ i32Max)
    (hdl : ∀ tr ∈ history is, DeadLetters subId name maxAttempts tr)
    (hcount : ∀ tr ∈ history is, Counting subId tr) :
    (∃ n : Nat, (n : Int) ≤ maxAttempts ∧
      (deliveriesIn (history is) subId seq).map Delivered.deliveryAttempt = List.range' 1 n) ∧
    (logOf (Run.final step start is).deadLettered subId seq).length ≤ 1 ∧
    ∀ l tr l', history is = l ++ tr :: l' →
      (logOf tr.post.deadLettered subId seq ≠ logOf tr.pre.deadLettered subId seq →
        ForwardedCopy tr subId seq name) ∧
      (logOf tr.post.deadLettered subId seq ≠ [] → ∀ tr' ∈ l', ∀ d, ¬ Delivers tr' subId seq d) := by
  have hend : Tally subId seq name maxAttempts (history is) (Run.final step start is) := by
    refine Run.history_inv (C := fun _ tr => DeadLetters subId name maxAttempts tr ∧
      Counting subId tr) (fun l s i h hc => h.step hpos hmax hc.1 hc.2) (tally_start hpos)
      fun l tr l' hl => ?_
    have hmem : tr ∈ history is := by
      rw [history, hl]
      simp
    exact ⟨hdl tr hmem, hcount tr hmem⟩
  refine ⟨⟨_, hend.bound, hend.attempts⟩, hend.once, fun l tr l' hsplit => ⟨?_, fun hne tr' htr' => ?_⟩⟩
  · exact hend.copies tr (by rw [hsplit]; simp)
  · have hpair := hend.closed
    rw [hsplit] at hpair
    exact (List.pairwise_cons.mp (List.pairwise_append.mp hpair).2.1).1 tr' htr' hne

end Runs

/-- Whether a lease call finds the policy and its topic, and the topic takes every message
that the call sends on. -/
def deadLettersCheck (name : String) (maxAttempts : Int) (tr : Transition) : Bool :=
  (seekTarget tr.pre.kv tr.input.op).isNone && meetsNoRefusal tr.pre tr.input &&
  (leaseCall tr.pre tr.input.op).all fun c =>
    let policy := reclaimPolicy tr.pre.kv c.1
    decide (policy.deadLetter.topic = some name ∧
      policy.deadLetter.maxDeliveryAttempts = maxAttempts) &&
    (TopicStore.get tr.pre.kv name).isOk

theorem DeadLetters.of_check {name : String} {maxAttempts : Int} {tr : Transition}
    (h : deadLettersCheck name maxAttempts tr = true) (subId : Nat) :
    DeadLetters subId name maxAttempts tr := by
  simp only [deadLettersCheck, Bool.and_eq_true, Option.all_eq_true, decide_eq_true_eq] at h
  obtain ⟨⟨hseek, hmeets⟩, hcall⟩ := h
  have htopic : ∀ c, leaseCall tr.pre tr.input.op = some c →
      ∃ dlq, TopicStore.get tr.pre.kv name = .ok dlq := by
    intro c hc
    have hok := (hcall c hc).2
    cases hg : TopicStore.get tr.pre.kv name with
    | ok dlq => exact ⟨dlq, rfl⟩
    | error e =>
      rw [hg] at hok
      cases hok
  refine ⟨fun {secs} hc => ?_, fun {secs} hc => htopic _ hc, .of_check hmeets, fun c hc => ?_⟩
  · obtain ⟨⟨hn, hmax⟩, _⟩ := hcall _ hc
    rw [← hn, ← hmax]
  · rw [hc] at hseek
    cases hseek

def deadLetterSetup : List Input :=
  [⟨0, .createTopic "projects/p/topics/top1" ∅ none none false false⟩,
   ⟨0, .createSubscription "projects/p/subscriptions/subA" "projects/p/topics/top1"
      { deadLetterTopic := some "projects/p/topics/dead", maxDeliveryAttempts := some 5 }⟩,
   ⟨0, .createTopic "projects/p/topics/dead" ∅ none none false false⟩,
   ⟨0, .publish "projects/p/topics/top1" [⟨[1, 2, 3], ∅, ""⟩]⟩]

/-- Five deliveries; the sixth pull forwards the message. -/
def sixPulls : List Input :=
  deadLetterSetup ++ [pullA 0, pullA 10000, pullA 20000, pullA 30000, pullA 40000, pullA 50000]

theorem six_pulls_dead_letter :
    (∃ n : Nat, (n : Int) ≤ 5 ∧
      (deliveriesIn (history sixPulls) 2 1).map Delivered.deliveryAttempt = List.range' 1 n) ∧
    (deliveriesIn (history sixPulls) 2 1).length = 5 ∧
    (logOf (Run.final step start sixPulls).deadLettered 2 1).length = 1 := by
  have hfacts : (history sixPulls).all (fun tr => deadLettersCheck "projects/p/topics/dead" 5 tr &&
        ownIds tr.pre.kv tr.input.op) = true ∧
      (deliveriesIn (history sixPulls) 2 1).length = 5 ∧
      (logOf (Run.final step start sixPulls).deadLettered 2 1).length = 1 := by
    decide +kernel
  obtain ⟨hcheck, hlen, hlog⟩ := hfacts
  have hall : ∀ tr ∈ history sixPulls, deadLettersCheck "projects/p/topics/dead" 5 tr = true ∧
      ownIds tr.pre.kv tr.input.op = true := fun tr htr =>
    Bool.and_eq_true_iff.mp (List.all_eq_true.mp hcheck tr htr)
  refine ⟨(attempts_counted_and_bounded (by decide) (by decide)
    (fun tr htr => .of_check (hall tr htr).1 2) fun tr htr => ?_).1, hlen, hlog⟩
  refine ⟨(OwnIds.of_check (hall tr htr).2).modify, fun {sid st} hop => ?_⟩
  have hno : ∀ i ∈ sixPulls, ∀ sid, i.op ≠ .closeStream sid := by
    simp [sixPulls, deadLetterSetup, pullA]
  exact absurd hop (hno _ (mem_inputs htr) sid)

/-- The stream that held the message is closed, and the count starts over. -/
def closedThenPulled : List Input :=
  deadLetterSetup ++ [⟨0, .openStream "projects/p/subscriptions/subA" 10 0 0⟩,
    ⟨0, .leaseForStream 1⟩, ⟨0, .closeStream 1⟩, pullA 0]

theorem second_delivery_reports_one :
    (∀ tr ∈ history closedThenPulled, DeadLetters 2 "projects/p/topics/dead" 5 tr) ∧
    (deliveriesIn (history closedThenPulled) 2 1).map Delivered.deliveryAttempt = [1, 1] := by
  have hfacts : (history closedThenPulled).all (deadLettersCheck "projects/p/topics/dead" 5) =
        true ∧
      (deliveriesIn (history closedThenPulled) 2 1).map Delivered.deliveryAttempt = [1, 1] := by
    decide +kernel
  exact ⟨fun tr htr => .of_check (List.all_eq_true.mp hfacts.1 tr htr) 2, hfacts.2⟩

end OpenPubusb
