import OpenPubusb.Deliveries

/-! Two deliveries of a message carry different ack ids as long as nothing resets
its attempts while it can still be delivered. -/

namespace OpenPubusb

/-- What keeps the attempts of the messages delivered by `l` from starting
over at `tr`. -/
structure Fresh (l : List Transition) (tr : Transition) : Prop where
  own : NoForeignModify tr.pre tr.input.op
  forwardable : Forwardable tr
  /-- A closed stream tracks nothing that can still be delivered. -/
  close : ∀ {sid st}, tr.input.op = .closeStream sid → tr.pre.streams.sessions.get sid = some st →
    ∀ q ∈ st.outstanding.keys, tr.pre.kv.pending st.info.subId q = false
  /-- A seek opens nothing that was delivered before. -/
  seek : ∀ {subId c}, seekTarget tr.pre.kv tr.input.op = some (subId, c) →
    ∀ q, DeliveredIn l subId q → c.isDone q = true
  /-- The attempts are not saturated. -/
  attempts : ∀ {subId secs}, leaseCall tr.pre tr.input.op = some (subId, secs) →
    ∀ q n, (tr.pre.slot subId q).Due (reclaimPolicy tr.pre.kv subId) tr.input.nowMs n →
      n < u32Max

/-- Everything the slot remembers is at attempt `n` or later, and it remembers
something as long as the message can be delivered. -/
structure Slot.AtLeast (x : Slot) (n : Nat) : Prop where
  lease : ∀ l, x.lease = some l → n ≤ l.attempts
  row : ∀ r, x.row = some r → n ≤ r.attempts
  pending : x.pending = true → x.row ≠ none

theorem Slot.AtLeast.due {x : Slot} {n : Nat} (h : x.AtLeast n) (hp : x.pending = true)
    {policy : ReclaimPolicy} {now : Int} {k : Nat} (hdue : x.Due policy now k) : n ≤ k := by
  cases hl : x.lease with
  | some l =>
    simp only [Slot.Due, hl] at hdue
    rw [hdue.2.2]
    exact h.lease l hl
  | none =>
    cases hr : x.row with
    | some r =>
      simp only [Slot.Due, hl, hr] at hdue
      rw [hdue.2]
      exact h.row r hr
    | none => exact absurd hr (h.pending hp)

/-- The generation of a lease is its attempt. -/
structure Slot.Numbered (x : Slot) : Prop where
  lease : ∀ l, x.lease = some l → l.generation = l.attempts
  row : ∀ r, x.row = some r → r.generation = r.attempts

theorem Slot.Numbered.apply {x : Slot} {policy : ReclaimPolicy} {now : Int} {e : Effect}
    (h : x.Numbered) (he : e.Enabled policy now x) : (e.apply x).Numbered := by
  have hnone : ∀ l : DeliveryRecord, (none : Option DeliveryRecord) = some l →
      l.generation = l.attempts := fun _ h => by cases h
  have hset : ∀ (d : Int) (l : DeliveryRecord),
      x.lease.map (fun r => { r with deadlineMs := d }) = some l → l.generation = l.attempts := by
    intro d l hl
    obtain ⟨l₀, hl₀, rfl⟩ := Option.map_eq_some_iff.mp hl
    exact h.lease l₀ hl₀
  cases e with
  | idle => exact h
  | granted r =>
    obtain ⟨_, _, _, _, hg⟩ := he
    have hr : ∀ l, some r = some l → l.generation = l.attempts := fun l hl => by cases hl; exact hg
    exact ⟨hr, hr⟩
  | forwarded saved => exact ⟨hnone, hnone⟩
  | retired dropped =>
    refine ⟨h.lease, fun r hr => ?_⟩
    cases dropped with
    | true => cases hr
    | false => exact h.row r hr
  | acked => exact ⟨hnone, hnone⟩
  | marked => exact ⟨h.lease, hnone⟩
  | stolen => exact ⟨hnone, h.row⟩
  | modified d => exact ⟨hset d, hset d⟩
  | dropped limit => exact ⟨hnone, h.row⟩
  | postponed limit due => exact ⟨hset due, h.row⟩
  | released => exact ⟨hnone, hnone⟩
  | reset p => exact ⟨hnone, hnone⟩
  | recovered => exact ⟨h.row, h.row⟩
  | attached p => exact ⟨h.lease, h.row⟩

section Steps

variable {s : Engine} {i : Input} {reply : Reply} {t : Engine} {subId seq : Nat} {e : Effect}
  {n : Nat} {l : List Transition}

/-- A step leaves the slot at the same attempt, or takes it to a later one. -/
theorem SlotStep.atLeast (h : SlotStep s i reply t subId seq e) (hx : (s.slot subId seq).AtLeast n)
    (hfresh : Fresh l ⟨s, i, reply, t⟩) (hl : DeliveredIn l subId seq)
    (hknown : subId ≤ s.kv.counter) :
    (t.slot subId seq).AtLeast n ∧ ∀ r, e = .granted r → n < r.attempts := by
  have hen := h.enabled
  have hcause := h.cause
  have hfwd : ¬ Refused s i subId := hfresh.forwardable.not_refused subId
  have hnone : ∀ l : DeliveryRecord, (none : Option DeliveryRecord) = some l → n ≤ l.attempts :=
    fun _ h => by cases h
  have hset : ∀ (d : Int) (l : DeliveryRecord),
      (s.slot subId seq).lease.map (fun r => { r with deadlineMs := d }) = some l →
        n ≤ l.attempts := by
    intro d l hl
    obtain ⟨l₀, hl₀, rfl⟩ := Option.map_eq_some_iff.mp hl
    exact hx.lease l₀ hl₀
  have hdone : ∀ x : Slot, x.lease = none → x.row = none → x.pending = false → x.AtLeast n :=
    fun x hl hr hp => ⟨fun l h => hnone l (hl ▸ h), fun r h => hnone r (hr ▸ h),
      fun h => by rw [hp] at h; cases h⟩
  rw [h.slot]
  cases e with
  | granted r =>
    obtain ⟨hp, k, hdue, hk, _⟩ := hen
    obtain ⟨secs, hcall, _⟩ := hcause
    have hnk := hx.due hp hdue
    have hlt : n < r.attempts := by
      rw [hk, satSuccU32_of_lt (hfresh.attempts hcall seq k hdue)]
      omega
    have hr : ∀ l, some r = some l → n ≤ l.attempts := fun l hl => by cases hl; exact hlt.le
    refine ⟨⟨hr, hr, fun _ => Option.some_ne_none r⟩, fun r' hr' => ?_⟩
    cases hr'
    exact hlt
  | idle => exact ⟨hx, fun _ h => by cases h⟩
  | forwarded saved =>
    have hsaved := h.saved_of_forwarded rfl hfwd
    refine ⟨hdone _ rfl rfl ?_, fun _ h => by cases h⟩
    simp only [Effect.apply, hsaved, Bool.not_true, Bool.and_false]
  | retired dropped =>
    refine ⟨⟨hx.lease, fun r hr => ?_, fun hp => (by cases hp)⟩, fun _ h => by cases h⟩
    cases dropped with
    | true => cases hr
    | false => exact hx.row r hr
  | acked => exact ⟨hdone _ rfl rfl rfl, fun _ h => by cases h⟩
  | marked => exact ⟨⟨hx.lease, hnone, fun hp => (by cases hp)⟩, fun _ h => by cases h⟩
  | stolen => exact ⟨⟨hnone, hx.row, hx.pending⟩, fun _ h => by cases h⟩
  | modified d =>
    obtain ⟨l₀, hl₀⟩ := Option.ne_none_iff_exists'.mp hen
    refine ⟨⟨hset d, hset d, fun _ => ?_⟩, fun _ h => by cases h⟩
    simp only [Effect.apply, hl₀, Option.map_some]
    exact Option.some_ne_none _
  | dropped limit => exact ⟨⟨hnone, hx.row, hx.pending⟩, fun _ h => by cases h⟩
  | postponed limit due => exact ⟨⟨hset due, hx.row, hx.pending⟩, fun _ h => by cases h⟩
  | released =>
    obtain ⟨sid, st, hop, hst, hsub, hmem⟩ := hcause
    refine ⟨hdone _ rfl rfl ?_, fun _ h => by cases h⟩
    have hp := hfresh.close hop hst seq hmem
    rw [hsub] at hp
    exact hp
  | reset p =>
    obtain ⟨c, htarget, hp⟩ := hcause
    refine ⟨hdone _ rfl rfl (hp ?_), fun _ h => by cases h⟩
    exact hfresh.seek htarget seq hl
  | recovered => exact ⟨⟨hx.row, hx.row, hx.pending⟩, fun _ h => by cases h⟩
  | attached p => exact absurd hknown (not_le.mpr hcause)

end Steps

/-- What a run with fresh transitions `l` has reached. -/
structure Progressed (l : List Transition) (s : Engine) : Prop where
  wf : s.WellFormed
  numbered : ∀ subId seq, (s.slot subId seq).Numbered
  atLeast : ∀ tr ∈ l, ∀ subId seq d, Delivers tr subId seq d →
    subId ≤ s.kv.counter ∧ (s.slot subId seq).AtLeast d.deliveryAttempt ∧
      d.deliveryAttempt ≤ u32Max ∧ d.ackId = encodeAckId subId seq d.deliveryAttempt
  increasing : l.Pairwise fun a b => ∀ subId seq d d', Delivers a subId seq d →
    Delivers b subId seq d' → d.deliveryAttempt < d'.deliveryAttempt

theorem progressed_start : Progressed [] start where
  wf := wellFormed_start
  numbered _ _ := ⟨fun _ h => (by cases h), fun _ h => (by cases h)⟩
  atLeast _ h := by cases h
  increasing := .nil

theorem Progressed.step {l : List Transition} {s : Engine} {i : Input} (h : Progressed l s)
    (hfresh : Fresh l (Run.transition OpenPubusb.step s i)) :
    Progressed (l ++ [Run.transition OpenPubusb.step s i]) (OpenPubusb.step s i).2 := by
  have href : Refines s i (OpenPubusb.step s i).1 (OpenPubusb.step s i).2 :=
    step_refines h.wf hfresh.own
  have hnew : ∀ subId seq d, Delivers (Run.transition OpenPubusb.step s i) subId seq d →
      ∃ r, SlotStep s i (OpenPubusb.step s i).1 (OpenPubusb.step s i).2 subId seq (.granted r) ∧
        d.ackId = encodeAckId subId seq r.attempts ∧ d.deliveryAttempt = r.attempts := by
    rintro subId seq d ⟨ds, hr, hmem, hseq⟩
    obtain ⟨e, he⟩ := href.slots subId seq
    obtain ⟨r, rfl, _, hid, hatt⟩ := he.delivered hr hmem hseq
    exact ⟨r, he, hid, hatt⟩
  have hold : ∀ tr ∈ l, ∀ subId seq d, Delivers tr subId seq d → ∀ e,
      SlotStep s i (OpenPubusb.step s i).1 (OpenPubusb.step s i).2 subId seq e →
      ((OpenPubusb.step s i).2.slot subId seq).AtLeast d.deliveryAttempt ∧
        ∀ r, e = .granted r → d.deliveryAttempt < r.attempts := by
    intro tr htr subId seq d hd e he
    obtain ⟨hknown, hx, _⟩ := h.atLeast tr htr subId seq d hd
    exact he.atLeast hx hfresh ⟨tr, htr, d, hd⟩ hknown
  refine ⟨href.wf, fun subId seq => ?_, fun tr htr subId seq d hd => ?_, ?_⟩
  · obtain ⟨e, he⟩ := href.slots subId seq
    rw [he.slot]
    exact (h.numbered subId seq).apply he.enabled
  · rcases List.mem_append.mp htr with htr | htr
    · obtain ⟨hknown, _, hmax, hid⟩ := h.atLeast tr htr subId seq d hd
      obtain ⟨e, he⟩ := href.slots subId seq
      exact ⟨hknown.trans href.counter, (hold tr htr subId seq d hd e he).1, hmax, hid⟩
    · rw [List.mem_singleton.mp htr] at hd
      obtain ⟨r, he, hid, hatt⟩ := hnew subId seq d hd
      obtain ⟨_, k, _, hk, _⟩ := he.enabled
      obtain ⟨secs, hcall, _⟩ := he.cause
      refine ⟨(leaseCall_known h.wf hcall).trans href.counter, ?_, ?_, ?_⟩
      · rw [he.slot, hatt]
        have hr : ∀ l, some r = some l → r.attempts ≤ l.attempts := fun l hl => by
          cases hl
          exact le_rfl
        exact ⟨hr, hr, fun _ => Option.some_ne_none r⟩
      · rw [hatt, hk]
        exact min_le_left _ _
      · rw [hid, hatt]
  · refine List.pairwise_append.mpr ⟨h.increasing, List.pairwise_singleton _ _, ?_⟩
    intro a ha b hb subId seq d d' hd hd'
    rw [List.mem_singleton.mp hb] at hd'
    obtain ⟨r, he, _, hatt⟩ := hnew subId seq d' hd'
    rw [hatt]
    exact (hold a ha subId seq d hd _ he).2 r rfl

theorem decodeAckId_encodeAckId (subId seq generation : Nat) :
    decodeAckId (encodeAckId subId seq generation) =
      some (subId % 2 ^ 64, seq % 2 ^ 64, generation % 2 ^ 64) := by
  have hlen : ∀ n, (Bytes.toBe64 n).length = 8 := fun _ => rfl
  simp only [decodeAckId, encodeAckId, String.toList_ofList, Bytes.decode64_encode64,
    Option.bind_eq_bind, Option.bind_some]
  rw [if_neg (by simp [hlen])]
  have h₁ : (Bytes.toBe64 subId ++ Bytes.toBe64 seq ++ Bytes.toBe64 generation).take 8 =
      Bytes.toBe64 subId := rfl
  have h₂ : ((Bytes.toBe64 subId ++ Bytes.toBe64 seq ++ Bytes.toBe64 generation).drop 8).take 8 =
      Bytes.toBe64 seq := rfl
  have h₃ : (Bytes.toBe64 subId ++ Bytes.toBe64 seq ++ Bytes.toBe64 generation).drop 16 =
      Bytes.toBe64 generation := rfl
  rw [h₁, h₂, h₃, Bytes.fromBe_toBe64, Bytes.fromBe_toBe64, Bytes.fromBe_toBe64]

theorem ne_of_attempts_lt {subId seq m n : Nat} (h : m < n) (hn : n ≤ u32Max) :
    encodeAckId subId seq m ≠ encodeAckId subId seq n := by
  intro heq
  have hd := congrArg decodeAckId heq
  simp only [decodeAckId_encodeAckId, Option.some.injEq, Prod.mk.injEq, true_and] at hd
  simp only [u32Max] at hn
  omega

theorem progressed_pre {is : List Input} {l l' : List Transition} {tr : Transition}
    (hrun : ∀ l tr l', history is = l ++ tr :: l' → Fresh l tr)
    (h : history is = l ++ tr :: l') : Progressed l tr.pre := by
  obtain ⟨is₁, i, is₂, rfl, rfl, rfl, _⟩ := Run.trace_eq_append h
  refine Run.history_inv (P := Progressed) (C := Fresh) (fun l s i hp hc => hp.step hc)
    progressed_start fun l tr l' hl => ?_
  refine hrun l tr (l' ++ Run.trace step (Run.final step start is₁) (i :: is₂)) ?_
  rw [history, Run.trace_append, hl, List.append_assoc, List.cons_append]

section Runs

variable {is : List Input} {l between l' : List Transition} {tr₁ tr₂ : Transition}
  {subId seq : Nat} {d₁ d₂ : Delivered}

theorem ack_ids_never_reused
    (hrun : ∀ l tr l', history is = l ++ tr :: l' → Fresh l tr)
    (hsplit : history is = l ++ tr₁ :: (between ++ tr₂ :: l'))
    (h₁ : Delivers tr₁ subId seq d₁) (h₂ : Delivers tr₂ subId seq d₂) :
    d₁.ackId ≠ d₂.ackId ∧ (∀ d, Delivers tr₁ subId seq d → d = d₁) ∧
      ∀ tr ∈ l', ¬ tr.pre.leases.Names d₁.ackId subId seq := by
  have hsplit₂ : history is = (l ++ tr₁ :: between) ++ tr₂ :: l' := by
    rw [hsplit, List.append_assoc, List.cons_append]
  have hmem₁ : tr₁ ∈ history is := by simp [hsplit]
  have hafter : Progressed ((l ++ tr₁ :: between) ++ [tr₂]) tr₂.post := by
    obtain ⟨_, i, _, _, _, htr₂, _⟩ := Run.trace_eq_append hsplit₂
    have hpre := progressed_pre hrun hsplit₂
    have hfresh := hrun _ _ _ hsplit₂
    rw [htr₂] at hpre hfresh ⊢
    exact hpre.step hfresh
  have hlt : d₁.deliveryAttempt < d₂.deliveryAttempt :=
    (List.pairwise_append.mp hafter.increasing).2.2 tr₁ (by simp) tr₂ (by simp) subId seq d₁ d₂
      h₁ h₂
  obtain ⟨_, _, _, hid₁⟩ := hafter.atLeast tr₁ (by simp) subId seq d₁ h₁
  obtain ⟨_, _, hmax, hid₂⟩ := hafter.atLeast tr₂ (by simp) subId seq d₂ h₂
  refine ⟨?_, fun d hd => ?_, fun tr htr => ?_⟩
  · rw [hid₁, hid₂]
    exact ne_of_attempts_lt hlt hmax
  · obtain ⟨ds, hr, hmem, hseq⟩ := h₁
    obtain ⟨ds', hr', hmem', hseq'⟩ := hd
    rw [hr] at hr'
    cases hr'
    obtain ⟨e, he⟩ := (refines_of_mem hmem₁ (hrun _ _ _ hsplit).own).slots subId seq
    obtain ⟨_, _, hone, _⟩ := he.delivered hr hmem hseq
    obtain ⟨_, _, hone', _⟩ := he.delivered hr hmem' hseq'
    rw [hone] at hone'
    exact (List.singleton_inj.mp hone').symm
  · obtain ⟨a, b, rfl⟩ := List.append_of_mem htr
    have hlater : history is = (l ++ tr₁ :: (between ++ tr₂ :: a)) ++ tr :: b := by
      rw [hsplit]
      simp
    have hp := progressed_pre hrun hlater
    obtain ⟨_, hat, _⟩ := hp.atLeast tr₂ (by simp) subId seq d₂ h₂
    rintro ⟨lease, hlease, hdec⟩
    have hslot : (tr.pre.slot subId seq).lease = some lease.record := by
      simp only [Engine.slot, hlease, Option.map_some]
    have hge : d₂.deliveryAttempt ≤ lease.attempts := hat.lease _ hslot
    have hgen : lease.generation = lease.attempts := (hp.numbered subId seq).lease _ hslot
    rw [hid₁, decodeAckId_encodeAckId] at hdec
    simp only [Option.some.injEq, Prod.mk.injEq] at hdec
    have hmod := Nat.mod_le d₁.deliveryAttempt (2 ^ 64)
    omega

end Runs

/-- What `Fresh` asks for, as a check for a run without stream closes and seeks. -/
def freshCheck (tr : Transition) : Bool :=
  ownIds tr.pre.kv tr.input.op && meetsNoRefusal tr.pre tr.input &&
    (match tr.input.op with
      | .closeStream _ => false
      | op => (seekTarget tr.pre.kv op).isNone) &&
    tr.pre.leases.byKey.entries.all (fun e => e.2.attempts < u32Max) &&
    tr.pre.kv.dlv.entries.all (fun e => e.2.attempts < u32Max)

theorem Fresh.of_check {tr : Transition} (h : freshCheck tr = true) (l : List Transition) :
    Fresh l tr := by
  simp only [freshCheck, Bool.and_eq_true, List.all_eq_true, decide_eq_true_eq] at h
  obtain ⟨⟨⟨⟨hown, hfwd⟩, hop⟩, hleases⟩, hrows⟩ := h
  refine ⟨(OwnIds.of_check hown).modify, .of_check hfwd, fun {sid st} hclose => ?_,
    fun {subId c} hseek => ?_, fun {subId secs} _ q n hdue => ?_⟩
  · rw [hclose] at hop
    cases hop
  · have hnone : seekTarget tr.pre.kv tr.input.op = none := by
      cases hi : tr.input.op <;> rw [hi] at hop <;>
        first | exact Option.isNone_iff_eq_none.mp hop | cases hop
    rw [hnone] at hseek
    cases hseek
  · unfold Slot.Due at hdue
    cases hl : tr.pre.leases.get subId q with
    | some lease =>
      simp only [Engine.slot, hl, Option.map_some] at hdue
      rw [hdue.2.2]
      exact hleases (⟨subId, q⟩, lease) (SortedMap.mem_entries.mpr hl)
    | none =>
      cases hr : tr.pre.kv.dlv.get ⟨subId, q⟩ with
      | some r =>
        simp only [Engine.slot, hl, hr, Option.map_none] at hdue
        rw [hdue.2]
        exact hrows (⟨subId, q⟩, r) (SortedMap.mem_entries.mpr hr)
      | none =>
        simp only [Engine.slot, hl, hr, Option.map_none] at hdue
        rw [hdue]
        decide

/-- A delivery, a nack, and the next delivery. -/
theorem ack_ids_never_reused_after_nack :
    ∃ d₁ d₂, Delivers (firstOf (setup {}) (pullA 0)) 2 1 d₁ ∧
      Delivers (secondOf (setup {}) [extendA 1000 0] (pullA 0) (pullA 2000)) 2 1 d₂ ∧
      d₁.ackId ≠ d₂.ackId := by
  have hfacts : (history (setup {} ++ pullA 0 :: ([extendA 1000 0] ++ [pullA 2000]))).all
        freshCheck = true ∧
      (deliveryOf (firstOf (setup {}) (pullA 0)) 2 1).isSome = true ∧
      (deliveryOf (secondOf (setup {}) [extendA 1000 0] (pullA 0) (pullA 2000)) 2 1).isSome =
        true := by
    decide +kernel
  obtain ⟨hcheck, hd₁, hd₂⟩ := hfacts
  obtain ⟨d₁, hd₁⟩ := Option.isSome_iff_exists.mp hd₁
  obtain ⟨d₂, hd₂⟩ := Option.isSome_iff_exists.mp hd₂
  have h₁ := delivers_of_deliveryOf hd₁
  have h₂ := delivers_of_deliveryOf hd₂
  refine ⟨d₁, d₂, h₁, h₂, (ack_ids_never_reused (fun l tr l' hl => ?_) (history_split ..) h₁ h₂).1⟩
  rw [hl] at hcheck
  exact .of_check (List.all_eq_true.mp hcheck tr (by simp)) l

def openStreamA (maxMessages maxBytes : Int) : Input :=
  ⟨0, .openStream "projects/p/subscriptions/subA" 10 maxMessages maxBytes⟩

/-- The stream that held the message is closed, and the count starts over: the id
of its delivery acknowledges the next one. -/
theorem ack_id_reused_after_close :
    let tr₁ := firstOf (setup {} ++ [openStreamA 0 0]) ⟨0, .leaseForStream 1⟩
    let tr₂ := secondOf (setup {} ++ [openStreamA 0 0]) [⟨0, .closeStream 1⟩]
      ⟨0, .leaseForStream 1⟩ (pullA 0)
    ∃ d₁ d₂, Delivers tr₁ 2 1 d₁ ∧ Delivers tr₂ 2 1 d₂ ∧ d₁.ackId = d₂.ackId ∧
      tr₂.post.leases.Names d₁.ackId 2 1 := by
  intro tr₁ tr₂
  have hfacts : (deliveryOf tr₁ 2 1).map Delivered.ackId = some (encodeAckId 2 1 1) ∧
      (deliveryOf tr₂ 2 1).map Delivered.ackId = some (encodeAckId 2 1 1) ∧
      tr₂.post.leases.Names (encodeAckId 2 1 1) 2 1 := by
    decide +kernel
  obtain ⟨hd₁, hd₂, hnames⟩ := hfacts
  obtain ⟨d₁, hd₁, hid₁⟩ := Option.map_eq_some_iff.mp hd₁
  obtain ⟨d₂, hd₂, hid₂⟩ := Option.map_eq_some_iff.mp hd₂
  refine ⟨d₁, d₂, delivers_of_deliveryOf hd₁, delivers_of_deliveryOf hd₂, hid₁.trans hid₂.symm, ?_⟩
  rw [hid₁]
  exact hnames

end OpenPubusb
