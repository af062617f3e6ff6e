import OpenPubusb.CatalogOps
import OpenPubusb.Deliveries

/-! What a subscription can still deliver once it was detached or its topic was
deleted. -/

namespace OpenPubusb

open Hoare

def SubscriptionRecord.Closed (r : SubscriptionRecord) : Prop :=
  r.detached = true ∨ r.topic = deletedTopic

/-- No stream that is still open on a closed subscription leases, and no update
clears the flag of a detached one. -/
structure StaysDetached (s : Engine) (op : Op) : Prop where
  stream : ∀ sid info r, op = .leaseForStream sid → s.streams.info sid = some info →
    s.kv.subs.get info.subId = some r → ¬ r.Closed
  update : ∀ name patch r, op = .updateSubscription name patch →
    SubscriptionStore.get s.kv name = .ok r → r.detached = true → patch.detached ≠ some false

/-- The call detached the subscription, or deleted its topic. -/
def Detaches (tr : Transition) (subId : Nat) : Prop :=
  tr.reply = .done ∧
    ((∃ name r, tr.input.op = .detachSubscription name ∧
        SubscriptionStore.get tr.pre.kv name = .ok r ∧ r.id = subId) ∨
      ∃ name t r, tr.input.op = .deleteTopic name ∧ TopicStore.get tr.pre.kv name = .ok t ∧
        tr.pre.kv.subs.get subId = some r ∧ r.topicId = t.id)

section Changes

variable {op : Op} {kv kv' : Kv}

def KeepsClosed (kv kv' : Kv) : Prop :=
  ∀ id r', kv'.subs.get id = some r' →
    (∃ r, kv.subs.get id = some r ∧ (r.Closed → r'.Closed)) ∨ kv.counter < id

theorem keepsClosed_of_eq (h : kv'.subs = kv.subs) : KeepsClosed kv kv' := by
  intro id r hr
  rw [h] at hr
  exact Or.inl ⟨r, hr, fun h => h⟩

theorem KeepsClosed.trans {kv'' : Kv} (h : KeepsClosed kv kv') (h' : KeepsClosed kv' kv'')
    (hcount : kv.counter ≤ kv'.counter) : KeepsClosed kv kv'' := by
  intro id r'' hr''
  rcases h' id r'' hr'' with ⟨r', hr', hcl'⟩ | hid
  · rcases h id r' hr' with ⟨r, hr, hcl⟩ | hid
    · exact Or.inl ⟨r, hr, fun h => hcl' (hcl h)⟩
    · exact Or.inr hid
  · exact Or.inr (hcount.trans_lt hid)

theorem Change.keepsClosed (h : Change op kv kv') (hc : Consistent kv)
    (hup : ∀ name patch r, op = .updateSubscription name patch →
      SubscriptionStore.get kv name = .ok r → r.detached = true → patch.detached ≠ some false) :
    KeepsClosed kv kv' := by
  cases h with
  | @rewrite _ _ j r r' w hr hw =>
    intro i x hx
    rw [(persist_rows hc hr hw.identity_eq).1] at hx
    split_ifs at hx with hi
    · cases hx
      refine Or.inl ⟨r, hi ▸ hr, fun hclosed => ?_⟩
      cases hw with
      | touch => exact hclosed
      | detach => exact Or.inl rfl
      | pushConfig => exact hclosed
      | update r patch =>
        rcases hclosed with hdet | htopic
        · left
          have hne := hup r.name patch r rfl (hc.get_name hr) hdet
          change patch.detached.getD r.detached = true
          cases hp : patch.detached with
          | none => exact hdet
          | some b =>
            cases b with
            | true => rfl
            | false => exact absurd hp hne
        · exact Or.inr htopic
    · exact Or.inl ⟨x, hx, fun h => h⟩
  | deleteTopic w _ _ hsubs _ =>
    intro i x hx
    rw [hsubs] at hx
    obtain ⟨y, hy, hyx⟩ := Option.map_eq_some_iff.mp hx
    refine Or.inl ⟨y, hy, fun hclosed => ?_⟩
    split_ifs at hyx
    · subst hyx
      exact Or.inr rfl
    · subst hyx
      exact hclosed
  | createSubscription =>
    intro i x hx
    rw [SortedMap.get_insert] at hx
    split_ifs at hx with hi
    · exact Or.inr (by omega)
    · exact Or.inl ⟨x, hx, fun h => h⟩
  | deleteSubscription =>
    intro i x hx
    rw [SortedMap.get_erase] at hx
    split_ifs at hx
    exact Or.inl ⟨x, hx, fun h => h⟩
  | _ => exact keepsClosed_of_eq rfl

theorem Path.keepsClosed (h : Path op kv kv') (hc : Consistent kv) (hs : op.isSingle = false) :
    KeepsClosed kv kv' := by
  induction h with
  | refl => exact keepsClosed_of_eq rfl
  | tail hp hch ih =>
    have hev := Path.evolves hp hc
    refine ih.trans (hch.keepsClosed hev.consistent fun _ _ _ hop => ?_) hev.counter
    rw [hop] at hs
    cases hs

end Changes

section Steps

variable {s : Engine} {i : Input}

theorem step_keepsClosed (hc : Consistent s.kv) (hh : s.kv.Healthy) (h : StaysDetached s i.op) :
    KeepsClosed s.kv (step s i).2.kv := by
  cases hsingle : i.op.isSingle with
  | true =>
    have hone := step_once hc hh hsingle
    revert hone
    generalize (step s i).2.kv = kv'
    intro hone
    cases hone with
    | refl => exact keepsClosed_of_eq rfl
    | single hch => exact hch.keepsClosed hc h.update
  | false => exact (step_path i hc hh).keepsClosed hc hsingle

theorem pull_open {name : String} {n : Int} (hop : i.op = .pull name n) {subId : Nat}
    {ds : List Delivered} (hr : (step s i).1 = .delivered subId ds) :
    ∃ r, SubscriptionStore.get s.kv name = .ok r ∧ r.id = subId ∧ ¬ r.Closed := by
  have h : Ensures (perform i.nowMs i.op) s
      (fun reply _ => ∀ subId ds, reply = .delivered subId ds →
        ∃ r, SubscriptionStore.get s.kv name = .ok r ∧ r.id = subId ∧ ¬ r.Closed)
      (fun _ _ => True) := by
    rw [hop]
    simp only [perform, PubSubService.pullDelivered, PubSubService.attached, ensures_bind,
      ensures_pure, ensures_get, ensures_liftResult, ensures_ite, ensures_throw]
    refine ⟨fun _ _ => ⟨fun sub hsub => ⟨fun _ => trivial, fun hopen => ?_⟩, fun _ _ => trivial⟩,
      fun _ _ => trivial⟩
    have hreply : ∀ ds subId ds', Reply.delivered sub.id ds = .delivered subId ds' →
        ∃ r, SubscriptionStore.get s.kv name = .ok r ∧ r.id = subId ∧ ¬ r.Closed := by
      intro ds subId ds' he
      cases he
      exact ⟨sub, hsub, rfl, hopen⟩
    unfold Ensures
    cases leaseNext sub.id sub.topicId n i.nowMs sub.ackDeadlineSecs s with
    | error e t => trivial
    | ok ds t =>
      dsimp only
      cases PubSubService.touch sub.id i.nowMs t with
      | error e u => trivial
      | ok _ u => exact hreply ds
  unfold step at hr
  cases hp : perform i.nowMs i.op s with
  | ok r t =>
    rw [hp] at hr
    exact h.of_ok hp subId ds hr
  | error e t =>
    rw [hp] at hr
    cases hr

theorem not_delivered_closed (hwf : s.WellFormed) (hc : Consistent s.kv) (h : StaysDetached s i.op)
    {subId : Nat} {r : SubscriptionRecord} (hr : s.kv.subs.get subId = some r) (hclosed : r.Closed)
    {ds : List Delivered} : (step s i).1 ≠ .delivered subId ds := by
  intro hreply
  obtain ⟨a, u, hl⟩ := step_leased hwf hreply
  have hcall := hl.call
  cases hop : i.op with
  | pull name n =>
    obtain ⟨sub, hsub, hid, hopen⟩ := pull_open hop hreply
    obtain ⟨j, _, hs⟩ := get_eq_ok hsub
    rw [← (hc.subs.record hs).2, hid, hr] at hs
    cases hs
    exact hopen hclosed
  | leaseForStream sid =>
    rw [hop] at hcall
    obtain ⟨info, hinfo, he⟩ := Option.map_eq_some_iff.mp hcall
    simp only [Prod.mk.injEq] at he
    rw [← he.1] at hr
    exact h.stream sid info r hop hinfo hr hclosed
  | _ =>
    rw [hop] at hcall
    cases hcall

theorem detach_closes (hh : s.kv.Healthy) {name : String} {r : SubscriptionRecord}
    (hop : i.op = .detachSubscription name) (hget : SubscriptionStore.get s.kv name = .ok r) :
    ∃ r', (step s i).2.kv.subs.get r.id = some r' ∧ r'.Closed := by
  have h : Ensures (perform i.nowMs i.op) s
      (fun _ t => ∃ r', t.kv.subs.get r.id = some r' ∧ r'.Closed) (fun _ _ => False) := by
    rw [hop]
    simp only [perform, PubSubService.detachSubscription, onKv, ensures_bind, ensures_pure,
      ensures_focus, SubscriptionStore.detach, ensures_estateGet, hget, ensures_liftResult,
      SubscriptionStore.persist, putSub, putSubName]
    refine ⟨fun r' he => ?_, fun _ he => by cases he⟩
    cases he
    refine (ensures_kvWrite_healthy hh).mpr ((ensures_kvWrite_healthy ?_).mpr ?_)
    · exact fun n => hh n
    · exact ⟨_, SortedMap.get_insert_self _ _ _, Or.inl rfl⟩
  unfold step
  cases hp : perform i.nowMs i.op s with
  | ok reply t => exact h.of_ok hp
  | error e t => exact (h.of_error hp).elim

theorem deleteTopic_closes (hc : Consistent s.kv) (hh : s.kv.Healthy) {name : String}
    {t : TopicRecord} (hop : i.op = .deleteTopic name) (hreply : (step s i).1 = .done)
    (hget : TopicStore.get s.kv name = .ok t) {subId : Nat} {r : SubscriptionRecord}
    (hr : s.kv.subs.get subId = some r) (ht : r.topicId = t.id) :
    ∃ r', (step s i).2.kv.subs.get subId = some r' ∧ r'.Closed := by
  have h : Ensures (perform i.nowMs i.op) s
      (fun _ u => ∃ r', u.kv.subs.get subId = some r' ∧ r'.Closed) (fun _ _ => True) := by
    rw [hop]
    change Ensures (PubSubService.deleteTopic name >>= fun _ => pure Reply.done) s _ _
    rw [ensures_bind, PubSubService.deleteTopic, onKv, ensures_focus]
    refine (ensures_deleteTopic name hc hh).mono (fun _ kv' hdel => ?_) (fun _ _ _ => trivial)
    obtain ⟨t', hget', _, hdrop⟩ := hdel
    rw [hget] at hget'
    cases hget'
    refine ⟨{ r with topic := deletedTopic }, ?_, Or.inr rfl⟩
    change kv'.subs.get subId = _
    rw [hdrop.marked, hr, Option.map_some, if_pos ht]
  unfold step at hreply ⊢
  cases hp : perform i.nowMs i.op s with
  | ok reply u => exact h.of_ok hp
  | error e u =>
    rw [hp] at hreply
    cases hreply

end Steps

section Runs

theorem Detaches.closed {is : List Input} {tr : Transition} {subId : Nat} (h : Detaches tr subId)
    (htr : tr ∈ history is) (hc : Consistent tr.pre.kv) (hh : tr.pre.kv.Healthy) :
    ∃ r, tr.post.kv.subs.get subId = some r ∧ r.Closed := by
  obtain ⟨hreply, hpost⟩ := transition_eq_of_mem htr
  obtain ⟨hdone, hop⟩ := h
  rw [hreply] at hdone
  rw [hpost]
  rcases hop with ⟨name, r, hop, hget, rfl⟩ | ⟨name, t, r, hop, hget, hr, ht⟩
  · exact detach_closes hh hop hget
  · exact deleteTopic_closes hc hh hop hdone hget hr ht

theorem keepsClosed_final {s : Engine} {is : List Input} (hc : Consistent s.kv)
    (hh : s.kv.Healthy) (h : ∀ tr ∈ Run.trace step s is, StaysDetached tr.pre tr.input.op) :
    KeepsClosed s.kv (Run.final step s is).kv := by
  induction is generalizing s with
  | nil => exact keepsClosed_of_eq rfl
  | cons i is ih =>
    simp only [Run.trace, List.mem_cons, forall_eq_or_imp] at h
    have hev := (step_path i hc hh).evolves hc
    exact (step_keepsClosed hc hh h.1).trans (ih hev.consistent (hev.healthy hh) h.2) hev.counter

/-- From the call that detached it on, nothing is delivered on the subscription,
and its record stays closed. -/
def DetachPermanent (is : List Input) : Prop :=
  ∀ l tr l', history is = l ++ tr :: l' → ∀ subId, Detaches tr subId → ∀ tr' ∈ l',
    (∀ q d, ¬ Delivers tr' subId q d) ∧
      ∀ r, tr'.post.kv.subs.get subId = some r → r.Closed

theorem detach_permanent (is : List Input)
    (h : ∀ tr ∈ history is, StaysDetached tr.pre tr.input.op) : DetachPermanent is := by
  intro l tr l' hsplit subId hdet tr' htr'
  obtain ⟨is₀, is₁, hstart, hpre', hpost', hmem⟩ := Run.between_of_mem hsplit htr'
  have htr : tr ∈ history is := by
    rw [hsplit]
    exact List.mem_append_right _ List.mem_cons_self
  have htr'_mem : tr' ∈ history is := by
    rw [hsplit]
    exact List.mem_append_right _ (List.mem_cons_of_mem _ htr')
  obtain ⟨hc, hh⟩ := consistent_final is₀
  rw [← hstart] at hc hh
  obtain ⟨r₀, hr₀, hclosed⟩ := hdet.closed htr (consistent_pre htr).1 (consistent_pre htr).2
  have hknown : subId ≤ tr.post.kv.counter := by
    refine hc.sub_known ?_
    rw [hr₀]
    rfl
  have hkept : ∀ is', (∀ x ∈ Run.trace step tr.post is', x ∈ history is) → ∀ r,
      (Run.final step tr.post is').kv.subs.get subId = some r → r.Closed := by
    intro is' hsub r hr
    have hkeeps := keepsClosed_final hc hh fun x hx => h x (hsub x hx)
    rcases hkeeps subId r hr with ⟨r₁, hr₁, hcl⟩ | hid
    · rw [hr₀] at hr₁
      cases hr₁
      exact hcl hclosed
    · omega
  refine ⟨fun q d hd => ?_, fun r hr => ?_⟩
  · obtain ⟨_, r, _, hr, _⟩ := Kv.pending_iff.mp (hd.pending htr'_mem)
    have hbefore : ∀ x ∈ Run.trace step tr.post is₁, x ∈ history is := by
      intro x hx
      refine hmem x ?_
      rw [Run.trace_append]
      exact List.mem_append_left _ hx
    have hcl : r.Closed := hkept is₁ hbefore r (by rw [← hpre']; exact hr)
    obtain ⟨ds, hreply, _, _⟩ := hd
    rw [(transition_eq_of_mem htr'_mem).1] at hreply
    exact not_delivered_closed (wellFormed_pre htr'_mem) (consistent_pre htr'_mem).1 (h tr' htr'_mem)
      hr hcl hreply
  · rw [hpost'] at hr
    exact hkept _ hmem r hr

end Runs

def staysDetachedCheck (s : Engine) : Op → Bool
  | .leaseForStream sid =>
    (s.streams.info sid).all fun info => (s.kv.subs.get info.subId).all fun r =>
      !r.detached && r.topic ≠ deletedTopic
  | .updateSubscription _ patch => patch.detached ≠ some false
  | _ => true

theorem StaysDetached.of_check {s : Engine} {op : Op} (h : staysDetachedCheck s op = true) :
    StaysDetached s op := by
  refine ⟨fun sid info r hop hinfo hr hclosed => ?_, fun name patch r hop _ _ => ?_⟩
  · subst hop
    simp only [staysDetachedCheck, hinfo, hr, Option.all_some, Bool.and_eq_true,
      Bool.not_eq_true', decide_eq_true_eq] at h
    rcases hclosed with hdet | htopic
    · rw [hdet] at h
      cases h.1
    · exact h.2 htopic
  · subst hop
    exact of_decide_eq_true h

def detachedBy (tr : Transition) (subId : Nat) : Bool :=
  match tr.reply, tr.input.op with
  | .done, .detachSubscription name =>
    match SubscriptionStore.get tr.pre.kv name with
    | .ok r => r.id = subId
    | .error _ => false
  | _, _ => false

theorem Detaches.of_check {tr : Transition} {subId : Nat} (h : detachedBy tr subId = true) :
    Detaches tr subId := by
  unfold detachedBy at h
  split at h
  · rename_i name hreply hop
    split at h
    · rename_i r hget
      exact ⟨hreply, Or.inl ⟨name, r, hop, hget, of_decide_eq_true h⟩⟩
    · cases h
  · cases h

def detachA : Input := ⟨0, .detachSubscription "projects/p/subscriptions/subA"⟩

/-- A pull before the subscription is detached, and one after it. -/
theorem detach_permanent_of_pulls :
    (∃ d, Delivers (firstOf (setup {}) (pullA 0)) 2 1 d) ∧
      Detaches (firstOf (setup {} ++ [pullA 0]) detachA) 2 ∧
      DetachPermanent (setup {} ++ [pullA 0, detachA, pullA 20000]) := by
  have hfacts : (history (setup {} ++ [pullA 0, detachA, pullA 20000])).all
        (fun tr => staysDetachedCheck tr.pre tr.input.op) = true ∧
      (deliveryOf (firstOf (setup {}) (pullA 0)) 2 1).isSome = true ∧
      detachedBy (firstOf (setup {} ++ [pullA 0]) detachA) 2 = true := by
    decide +kernel
  obtain ⟨hcheck, hdel, hdet⟩ := hfacts
  obtain ⟨d, hd⟩ := Option.isSome_iff_exists.mp hdel
  exact ⟨⟨d, delivers_of_deliveryOf hd⟩, .of_check hdet,
    detach_permanent _ fun tr htr => .of_check (List.all_eq_true.mp hcheck tr htr)⟩

/-- A run in which the last call delivers on a subscription that was detached. -/
theorem not_detachPermanent {before middle : List Input} {i j : Input} {subId q : Nat}
    (hdet : detachedBy (firstOf before i) subId = true)
    (hdel : (deliveryOf (secondOf before middle i j) subId q).isSome = true) :
    ¬ DetachPermanent (before ++ i :: (middle ++ [j])) := by
  intro h
  obtain ⟨d, hd⟩ := Option.isSome_iff_exists.mp hdel
  exact (h _ _ _ (history_split before middle i j) subId (.of_check hdet) _
    (List.mem_append_right _ List.mem_cons_self)).1 q d (delivers_of_deliveryOf hd)

def reattachA : Input :=
  ⟨0, .updateSubscription "projects/p/subscriptions/subA" { detached := some false }⟩

/-- The stream that was open goes on delivering, and an update of the flag lets
pulls through again. -/
theorem detached_still_delivers :
    ¬ DetachPermanent (setup {} ++ [⟨0, .openStream "projects/p/subscriptions/subA" 10 0 0⟩] ++
      detachA :: ([] ++ [⟨0, .leaseForStream 1⟩])) ∧
    ¬ DetachPermanent (setup {} ++ detachA :: ([reattachA] ++ [pullA 0])) := by
  have hfacts : detachedBy (firstOf (setup {} ++ [⟨0, .openStream "projects/p/subscriptions/subA" 10
        0 0⟩]) detachA) 2 = true ∧
      (deliveryOf (secondOf (setup {} ++ [⟨0, .openStream "projects/p/subscriptions/subA" 10 0 0⟩])
        [] detachA ⟨0, .leaseForStream 1⟩) 2 1).isSome = true ∧
      detachedBy (firstOf (setup {}) detachA) 2 = true ∧
      (deliveryOf (secondOf (setup {}) [reattachA] detachA (pullA 0)) 2 1).isSome = true := by
    decide +kernel
  obtain ⟨hdet₁, hdel₁, hdet₂, hdel₂⟩ := hfacts
  exact ⟨not_detachPermanent hdet₁ hdel₁, not_detachPermanent hdet₂ hdel₂⟩

end OpenPubusb
