import OpenPubusb.Deliveries

/-! First deliveries follow the publish order. The scan visits the log in the
order of its seqs and passes no message by that it could deliver, unless that
message has a lease or a row; and a lease or a row means an earlier delivery. -/

namespace OpenPubusb

theorem Effect.pending_of_apply {x : Slot} {e : Effect} (h : (e.apply x).pending = true) :
    x.pending = true ∨ (∃ p, e = .reset p) ∨ ∃ p, e = .attached p := by
  cases e with
  | reset p => exact Or.inr (Or.inl ⟨p, rfl⟩)
  | attached p => exact Or.inr (Or.inr ⟨p, rfl⟩)
  | forwarded saved =>
    simp only [Effect.apply, Bool.and_eq_true] at h
    exact Or.inl h.1
  | retired dropped => cases h
  | acked => cases h
  | marked => cases h
  | _ => exact Or.inl h

def Slot.Remembered (x : Slot) : Prop := x.lease ≠ none ∨ x.row ≠ none

theorem Effect.remembered_of_apply {x : Slot} {e : Effect} (h : (e.apply x).Remembered) :
    x.Remembered ∨ ∃ r, e = .granted r := by
  have hmap : ∀ d : Int, x.lease.map (fun r => { r with deadlineMs := d }) ≠ none → x.Remembered :=
    fun d hd => Or.inl fun hl => hd (by rw [hl, Option.map_none])
  cases e with
  | granted r => exact Or.inr ⟨r, rfl⟩
  | idle => exact Or.inl h
  | forwarded saved => exact absurd rfl (h.elim id id)
  | retired dropped =>
    refine Or.inl (h.imp id fun hr => ?_)
    cases dropped with
    | true => exact absurd rfl hr
    | false => exact hr
  | acked => exact absurd rfl (h.elim id id)
  | marked => exact Or.inl (h.imp id fun hr => absurd rfl hr)
  | stolen => exact Or.inl (h.imp (fun hl => absurd rfl hl) id)
  | modified d => exact Or.inl (h.elim (hmap d) (hmap d))
  | dropped limit => exact Or.inl (h.imp (fun hl => absurd rfl hl) id)
  | postponed limit due => exact Or.inl (h.elim (hmap due) Or.inr)
  | released => exact absurd rfl (h.elim id id)
  | reset p => exact absurd rfl (h.elim id id)
  | recovered => exact Or.inl (Or.inr (h.elim id id))
  | attached p => exact Or.inl h

/-- The runs that the order is about, and what keeps it: no seek, no deadline
change sent to another subscription, no lease call that fails halfway. -/
structure Orderly (tr : Transition) : Prop where
  noSeek : seekTarget tr.pre.kv tr.input.op = none
  own : NoForeignModify tr.pre tr.input.op
  forwardable : Forwardable tr

/-- What a run with the transitions `l` has reached. -/
structure InOrder (l : List Transition) (s : Engine) : Prop where
  wf : s.WellFormed
  known : ∀ subId q, DeliveredIn l subId q → subId ≤ s.kv.counter
  remembered : ∀ subId q, (s.slot subId q).Remembered → DeliveredIn l subId q
  before : ∀ subId n, DeliveredIn l subId n → ∀ m < n, s.kv.pending subId m = true →
    DeliveredIn l subId m

theorem inOrder_start : InOrder [] start where
  wf := wellFormed_start
  known := by
    rintro subId q ⟨_, h, _⟩
    cases h
  remembered _ _ h := absurd rfl (h.elim id id)
  before := by
    rintro subId n ⟨_, h, _⟩
    cases h

theorem DeliveredIn.append_left {l l' : List Transition} {subId q : Nat}
    (h : DeliveredIn l subId q) : DeliveredIn (l ++ l') subId q := by
  obtain ⟨tr, htr, d, hd⟩ := h
  exact ⟨tr, List.mem_append_left _ htr, d, hd⟩

theorem DeliveredIn.first {l : List Transition} {subId q : Nat} (h : DeliveredIn l subId q) :
    ∃ a tr b d, l = a ++ tr :: b ∧ Delivers tr subId q d ∧ ¬ DeliveredIn a subId q := by
  induction l with
  | nil =>
    obtain ⟨_, h, _⟩ := h
    cases h
  | cons x l ih =>
    by_cases hx : ∃ d, Delivers x subId q d
    · obtain ⟨d, hd⟩ := hx
      exact ⟨[], x, l, d, rfl, hd, fun ⟨_, h, _⟩ => by cases h⟩
    · obtain ⟨y, hy, dy, hdy⟩ := h
      have hl : DeliveredIn l subId q := by
        rcases List.mem_cons.mp hy with rfl | hy
        · exact absurd ⟨dy, hdy⟩ hx
        · exact ⟨y, hy, dy, hdy⟩
      obtain ⟨a, tr, b, d, rfl, hd, hno⟩ := ih hl
      refine ⟨x :: a, tr, b, d, rfl, hd, fun ⟨z, hz, dz, hdz⟩ => ?_⟩
      rcases List.mem_cons.mp hz with rfl | hz
      · exact hx ⟨dz, hdz⟩
      · exact hno ⟨z, hz, dz, hdz⟩

section Steps

variable {s : Engine} {i : Input} {subId n m : Nat} {ds : List Delivered}

theorem Leased.remembered {a : LeaseArgs} {u t : Engine} (h : Leased s i subId ds a u t)
    (hwf : s.WellFormed) {d : Delivered} (hd : d ∈ ds) (hm : m < d.seq)
    (hp : t.kv.pending subId m = true) : (t.slot subId m).Remembered := by
  have hsub := h.sub
  have hpu : (u.slot subId m).pending = true := by
    rw [← h.slot_eq]
    exact hp
  obtain ⟨c, r, hc, hr, _, hpres⟩ := Kv.pending_iff.mp hpu
  rw [h.done.extended.subs] at hr
  have hpres' : u.kv.present a.topicId m = true := by
    rw [← h.topic r hr]
    simpa [Kv.present] using hpres
  rw [h.done.extended.present_eq h.done.filled] at hpres'
  have hrow : d.seq ∈ (scanPrefix s.kv.msg a.topicId).map Prod.fst :=
    h.done.order.subset (List.mem_map_of_mem hd)
  obtain ⟨⟨_, x⟩, hx, rfl⟩ := List.mem_map.mp hrow
  have htail := hwf.kv.log (mem_scanPrefix.mp hx)
  simp only [Kv.present, Bool.or_eq_true, decide_eq_true_eq] at hpres'
  obtain ⟨y, hy⟩ := Option.isSome_iff_exists.mp (hpres'.resolve_left (by omega))
  have hmem : m ∈ (scanPrefix s.kv.msg a.topicId).map Prod.fst :=
    List.mem_map.mpr ⟨(m, y), mem_scanPrefix.mpr hy, rfl⟩
  have hseen := h.done.seen d hd m hmem hm
  rw [hsub, ← h.slot_eq] at hseen
  exact hseen hp

theorem InOrder.step {l : List Transition} (h : InOrder l s)
    (hc : Orderly (Run.transition OpenPubusb.step s i)) :
    InOrder (l ++ [Run.transition OpenPubusb.step s i]) (OpenPubusb.step s i).2 := by
  have href : Refines s i (OpenPubusb.step s i).1 (OpenPubusb.step s i).2 :=
    step_refines h.wf hc.own
  have hnew : ∀ {subId q d}, Delivers (Run.transition OpenPubusb.step s i) subId q d →
      DeliveredIn (l ++ [Run.transition OpenPubusb.step s i]) subId q := fun hd =>
    ⟨_, List.mem_append_right _ List.mem_cons_self, _, hd⟩
  have hremembered : ∀ subId q, ((OpenPubusb.step s i).2.slot subId q).Remembered →
      DeliveredIn (l ++ [Run.transition OpenPubusb.step s i]) subId q := by
    intro subId q hr
    obtain ⟨e, he⟩ := href.slots subId q
    rw [he.slot] at hr
    rcases Effect.remembered_of_apply hr with hr | ⟨r, hg⟩
    · exact (h.remembered subId q hr).append_left
    · obtain ⟨ds, d, hreply, hmem, hseq⟩ := he.delivered_of_granted hg (hc.forwardable.not_refused subId)
      exact hnew ⟨ds, hreply, hmem, hseq⟩
  refine ⟨href.wf, fun subId q hq => ?_, hremembered, fun subId n hn m hm hp => ?_⟩
  · obtain ⟨tr, htr, d, hd⟩ := hq
    rcases List.mem_append.mp htr with htr | htr
    · exact (h.known subId q ⟨tr, htr, d, hd⟩).trans href.counter
    · rw [List.mem_singleton.mp htr] at hd
      obtain ⟨ds, hreply, _⟩ := hd
      obtain ⟨a, u, hl⟩ := step_leased h.wf hreply
      exact (leaseCall_known h.wf hl.call).trans href.counter
  · obtain ⟨tr, htr, d, hd⟩ := hn
    rcases List.mem_append.mp htr with htr | htr
    · have hn : DeliveredIn l subId n := ⟨tr, htr, d, hd⟩
      obtain ⟨e, he⟩ := href.slots subId m
      have hp' : (e.apply (s.slot subId m)).pending = true := by
        rw [← he.slot]
        exact hp
      have hcause := he.cause
      rcases Effect.pending_of_apply hp' with hp' | ⟨p, rfl⟩ | ⟨p, rfl⟩
      · exact (h.before subId n hn m hm hp').append_left
      · obtain ⟨c, htarget, _⟩ := hcause
        have hnone : seekTarget s.kv i.op = none := hc.noSeek
        rw [hnone] at htarget
        cases htarget
      · exact absurd (h.known subId n hn) (not_le.mpr hcause)
    · rw [List.mem_singleton.mp htr] at hd
      obtain ⟨ds, hreply, hmem, hseq⟩ := hd
      obtain ⟨a, u, hl⟩ := step_leased h.wf hreply
      exact hremembered subId m (hl.remembered h.wf hmem (hseq ▸ hm) hp)

end Steps

section Runs

variable {is : List Input} {l l' : List Transition} {tr : Transition} {subId m n : Nat}
  {d : Delivered}

theorem inOrder_pre (hrun : ∀ tr ∈ history is, Orderly tr) (h : history is = l ++ tr :: l') :
    InOrder l tr.pre := by
  obtain ⟨is₁, i, is₂, rfl, rfl, rfl, _⟩ := Run.trace_eq_append h
  refine Run.history_inv (P := InOrder) (C := fun _ tr => Orderly tr) (fun l s i hp hc => hp.step hc)
    inOrder_start fun l tr l' hl => hrun tr ?_
  rw [history, Run.trace_append, hl]
  simp

theorem first_deliveries_in_order (hrun : ∀ tr ∈ history is, Orderly tr)
    (hsplit : history is = l ++ tr :: l') (hn : Delivers tr subId n d) (hmn : m < n)
    (hm : DeliveredIn (history is) subId m) :
    (DeliveredIn l subId m ∨ ∃ d', Delivers tr subId m d') ∧
      ∀ ds, tr.reply = .delivered subId ds → (ds.map Delivered.seq).Pairwise (· < ·) := by
  refine ⟨?_, fun ds hreply => ?_⟩
  · by_contra hno
    obtain ⟨hl, htr⟩ := not_or.mp hno
    have hlate : DeliveredIn l' subId m := by
      obtain ⟨x, hx, dx, hdx⟩ := hm
      rw [hsplit] at hx
      rcases List.mem_append.mp hx with hx | hx
      · exact absurd ⟨x, hx, dx, hdx⟩ hl
      · rcases List.mem_cons.mp hx with rfl | hx
        · exact absurd ⟨dx, hdx⟩ htr
        · exact ⟨x, hx, dx, hdx⟩
    obtain ⟨a, x, b, dx, rfl, hdx, hfirst⟩ := hlate.first
    have hsplit' : history is = (l ++ tr :: a) ++ x :: b := by
      rw [hsplit, List.append_assoc, List.cons_append]
    have hx : x ∈ history is := by rw [hsplit']; simp
    obtain ⟨r, hst, _⟩ := hdx.granted hx (hrun x hx).own
    obtain ⟨y, hy, dy, hdy⟩ := (inOrder_pre hrun hsplit').before subId n
      ⟨tr, by simp, d, hn⟩ m hmn hst.enabled.1
    rcases List.mem_append.mp hy with hy | hy
    · exact hl ⟨y, hy, dy, hdy⟩
    · rcases List.mem_cons.mp hy with rfl | hy
      · exact htr ⟨dy, hdy⟩
      · exact hfirst ⟨y, hy, dy, hdy⟩
  · have hmem : tr ∈ history is := by rw [hsplit]; simp
    rw [(transition_eq_of_mem hmem).1] at hreply
    obtain ⟨a, u, hleased⟩ := step_leased (wellFormed_pre hmem) hreply
    exact (scanPrefix_increasing _ _).sublist hleased.done.order

end Runs

def orderlyCheck (tr : Transition) : Bool :=
  (seekTarget tr.pre.kv tr.input.op).isNone && ownIds tr.pre.kv tr.input.op &&
    meetsNoRefusal tr.pre tr.input

theorem Orderly.of_check {tr : Transition} (h : orderlyCheck tr = true) : Orderly tr := by
  simp only [orderlyCheck, Bool.and_eq_true] at h
  exact ⟨Option.isNone_iff_eq_none.mp h.1.1, (OwnIds.of_check h.1.2).modify, .of_check h.2⟩

def publishOne : Input := ⟨0, .publish "projects/p/topics/top1" [⟨[4, 5], ∅, ""⟩]⟩

/-- Two pulls of one message each. -/
theorem first_deliveries_in_order_of_pulls :
    DeliveredIn (history (setup {} ++ publishOne :: ([pullA 0] ++ [pullA 0]))) 2 1 ∧
    ∃ d, Delivers (secondOf (setup {}) [pullA 0] publishOne (pullA 0)) 2 2 d ∧
      (DeliveredIn (history (setup {}) ++
          firstOf (setup {}) publishOne :: betweenOf (setup {}) [pullA 0] publishOne) 2 1 ∨
        ∃ d', Delivers (secondOf (setup {}) [pullA 0] publishOne (pullA 0)) 2 1 d') := by
  have hfacts : (history (setup {} ++ publishOne :: ([pullA 0] ++ [pullA 0]))).all orderlyCheck =
        true ∧
      (betweenOf (setup {}) [pullA 0] publishOne).any (fun tr => (deliveryOf tr 2 1).isSome) =
        true ∧
      (deliveryOf (secondOf (setup {}) [pullA 0] publishOne (pullA 0)) 2 2).isSome = true := by
    decide +kernel
  obtain ⟨hcheck, hone, htwo⟩ := hfacts
  have hsplit := history_split (setup {}) [pullA 0] publishOne (pullA 0)
  obtain ⟨d, hd⟩ := Option.isSome_iff_exists.mp htwo
  have hm : DeliveredIn (history (setup {} ++ publishOne :: ([pullA 0] ++ [pullA 0]))) 2 1 := by
    obtain ⟨x, hx, hdx⟩ := List.any_eq_true.mp hone
    obtain ⟨dx, hdx⟩ := Option.isSome_iff_exists.mp hdx
    refine ⟨x, ?_, dx, delivers_of_deliveryOf hdx⟩
    rw [hsplit]
    simp [hx]
  have hsplit' : history (setup {} ++ publishOne :: ([pullA 0] ++ [pullA 0])) =
      (history (setup {}) ++ firstOf (setup {}) publishOne ::
        betweenOf (setup {}) [pullA 0] publishOne) ++
        secondOf (setup {}) [pullA 0] publishOne (pullA 0) :: [] := by
    rw [hsplit, List.append_assoc]
    rfl
  exact ⟨hm, d, delivers_of_deliveryOf hd,
    (first_deliveries_in_order (fun tr htr => .of_check (List.all_eq_true.mp hcheck tr htr))
      hsplit' (delivers_of_deliveryOf hd) (by decide) hm).1⟩

def retryOpts : CreateSubscriptionOptions := { minRetryBackoffSecs := some 10 }

def pullB (nowMs : Int) : Input := ⟨nowMs, .pull "projects/p/subscriptions/subB" 10⟩

/-- A nack of the lease of `subA` that is sent to `subB`. -/
def nackOfAToB : Input :=
  ⟨0, .modifyAckDeadline "projects/p/subscriptions/subB" [encodeAckId 2 1 1] 0⟩

/-- The nack leaves a row for message `1` on `subB`, where it was never delivered;
its retry delay lets message `2` pass. -/
theorem second_message_overtakes :
    let before := setup retryOpts ++ [pullA 0, nackOfAToB, publishOne]
    let tr := firstOf before (pullB 1000)
    let later := secondOf before [] (pullB 1000) (pullB 20000)
    (∀ x ∈ history (before ++ pullB 1000 :: ([] ++ [pullB 20000])),
      seekTarget x.pre.kv x.input.op = none) ∧
    (∃ d, Delivers tr 3 2 d) ∧ (∃ d, Delivers later 3 1 d) ∧
    ¬ (DeliveredIn (history before) 3 1 ∨ ∃ d, Delivers tr 3 1 d) := by
  intro before tr later
  have hfacts : (history (before ++ pullB 1000 :: ([] ++ [pullB 20000]))).all
        (fun x => (seekTarget x.pre.kv x.input.op).isNone) = true ∧
      (deliveryOf tr 3 2).isSome = true ∧ (deliveryOf later 3 1).isSome = true ∧
      (history before).all (fun x => (deliveryOf x 3 1).isNone) = true ∧
      (deliveryOf tr 3 1).isNone = true := by
    decide +kernel
  obtain ⟨hseek, hn, hm, hbefore, htr⟩ := hfacts
  obtain ⟨dn, hn⟩ := Option.isSome_iff_exists.mp hn
  obtain ⟨dm, hm⟩ := Option.isSome_iff_exists.mp hm
  refine ⟨fun x hx => Option.isNone_iff_eq_none.mp (List.all_eq_true.mp hseek x hx),
    ⟨dn, delivers_of_deliveryOf hn⟩, ⟨dm, delivers_of_deliveryOf hm⟩, ?_⟩
  rintro (⟨x, hx, d, hd⟩ | ⟨d, hd⟩)
  · exact not_delivers_of_all hbefore x hx d hd
  · exact not_delivers_of_deliveryOf (Option.isNone_iff_eq_none.mp htr) d hd

end OpenPubusb
