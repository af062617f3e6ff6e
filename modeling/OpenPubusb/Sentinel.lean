import OpenPubusb.CatalogOps

/-! The link from a subscription to its topic, by name and by id, and the
sentinel that stands for a deleted topic. -/

namespace OpenPubusb

/-- The record names its live topic, or its topic is gone and it carries the
sentinel. -/
structure Linked (kv : Kv) (r : SubscriptionRecord) : Prop where
  known : r.topicId ≤ kv.counter
  link : (r.topic = deletedTopic ∧ kv.topics.get r.topicId = none) ∨
    (r.topic ≠ deletedTopic ∧ ∃ t, kv.topics.get r.topicId = some t ∧ t.name = r.topic)

/-- No subscription is created on a topic that has the sentinel as its name. -/
def SentinelFree (kv : Kv) (op : Op) : Prop :=
  ∀ name opts t, op = .createSubscription name deletedTopic opts →
    TopicStore.get kv deletedTopic ≠ .ok t

def TopicDeleted (l : List Transition) (id : Nat) : Prop :=
  ∃ tr ∈ l, (tr.pre.kv.topics.get id).isSome ∧ tr.post.kv.topics.get id = none

theorem topicGet_congr {kv kv' : Kv} (ht : kv'.topics = kv.topics)
    (hn : kv'.topicNames = kv.topicNames) (name : String) :
    TopicStore.get kv' name = TopicStore.get kv name := by
  simp only [TopicStore.get, TopicStore.resolveId, TopicStore.loadRecord, ht, hn]

section Changes

variable {op : Op} {kv kv' : Kv}

theorem Linked.congr {r r' : SubscriptionRecord} (h : Linked kv r) (ht : r'.topic = r.topic)
    (hid : r'.topicId = r.topicId) (hcount : kv.counter ≤ kv'.counter)
    (htopics : (kv'.topics.get r.topicId).map TopicRecord.name =
      (kv.topics.get r.topicId).map TopicRecord.name) : Linked kv' r' := by
  refine ⟨hid ▸ h.known.trans hcount, ?_⟩
  rw [ht, hid]
  rcases h.link with ⟨hdel, hnone⟩ | ⟨hdel, t, hsome, hname⟩
  · rw [hnone, Option.map_none] at htopics
    exact Or.inl ⟨hdel, Option.map_eq_none_iff.mp htopics⟩
  · rw [hsome, Option.map_some] at htopics
    obtain ⟨t', ht', hname'⟩ := Option.map_eq_some_iff.mp htopics
    exact Or.inr ⟨hdel, t', ht', hname'.trans hname⟩

theorem Rewrites.link_eq {r r' : SubscriptionRecord} (h : Rewrites op r r') :
    r'.topic = r.topic ∧ r'.topicId = r.topicId := by
  cases h with
  | _ => exact ⟨rfl, rfl⟩

theorem Path.sameTopics {name topic : String} {opts : CreateSubscriptionOptions}
    (h : Path (.createSubscription name topic opts) kv kv') :
    kv'.topics = kv.topics ∧ kv'.topicNames = kv.topicNames := by
  induction h with
  | refl => exact ⟨rfl, rfl⟩
  | tail _ hch ih => cases hch with
    | _ => exact ih

theorem Path.sentinelFree (h : Path op kv kv') (hfree : SentinelFree kv op) :
    SentinelFree kv' op := by
  intro name opts t hop
  subst hop
  obtain ⟨ht, hn⟩ := h.sameTopics
  rw [topicGet_congr ht hn]
  exact hfree name opts t rfl

theorem Change.linked (h : Change op kv kv') (hc : Consistent kv) (hfree : SentinelFree kv op)
    (hl : ∀ i r, kv.subs.get i = some r → Linked kv r) {i : Nat} {r : SubscriptionRecord}
    (hr : kv'.subs.get i = some r) : Linked kv' r := by
  have hcount := (h.evolves hc).counter
  cases h with
  | rows => exact (hl i r hr).congr rfl rfl hcount rfl
  | log => exact (hl i r hr).congr rfl rfl hcount rfl
  | advance => exact (hl i r hr).congr rfl rfl hcount rfl
  | seek => exact (hl i r hr).congr rfl rfl hcount rfl
  | @rewrite _ _ j r₀ r' w hr₀ hw =>
    rw [SortedMap.get_insert] at hr
    split_ifs at hr with hi
    · cases hr
      obtain ⟨ht, hid⟩ := hw.link_eq
      exact (hl j r₀ hr₀).congr ht hid hcount rfl
    · exact (hl i r hr).congr rfl rfl hcount rfl
  | @createTopic _ _ _ _ _ _ _ t w hname _ hid =>
    have hne : r.topicId ≠ t.id := by
      have hknown := (hl i r hr).known
      omega
    refine (hl i r hr).congr rfl rfl hcount ?_
    rw [SortedMap.get_insert_ne _ _ hne]
  | updateTopic w hr₀ hname hid =>
    refine (hl i r hr).congr rfl rfl hcount ?_
    rw [SortedMap.get_insert]
    split_ifs with h
    · rw [h, hr₀, Option.map_some, Option.map_some, hname]
    · rfl
  | deleteTopic w hr₀ _ hsubs _ =>
    rw [hsubs] at hr
    obtain ⟨x, hx, hxr⟩ := Option.map_eq_some_iff.mp hr
    split_ifs at hxr with hid
    · subst hxr
      refine ⟨(hl i x hx).known.trans hcount, Or.inl ⟨rfl, ?_⟩⟩
      change (kv.topics.erase _).get x.topicId = none
      rw [hid, SortedMap.get_erase_self]
    · subst hxr
      refine (hl i x hx).congr rfl rfl hcount ?_
      rw [SortedMap.get_erase_ne _ hid]
  | @createSubscription _ name topic opts t nowMs n w hname ht =>
    rw [SortedMap.get_insert] at hr
    split_ifs at hr with hi
    · cases hr
      obtain ⟨id, _, hn, hs⟩ := topicGet_eq_ok ht
      have hid : t.id = id := (hc.topics.record hs).2
      have hle : t.id ≤ kv.counter := by
        refine hc.topic_known ?_
        rw [hid, hs]
        rfl
      refine ⟨hle.trans hcount, Or.inr ⟨fun htopic => ?_, t, ?_, hc.topics.name_eq hn hs⟩⟩
      · change topic = deletedTopic at htopic
        subst htopic
        exact hfree name opts t rfl ht
      · change kv.topics.get t.id = some t
        rw [hid, hs]
    · exact (hl i r hr).congr rfl rfl hcount rfl
  | deleteSubscription w hr₀ _ =>
    rw [SortedMap.get_erase] at hr
    split_ifs at hr
    exact (hl i r hr).congr rfl rfl hcount rfl
  | createSnapshot => exact (hl i r hr).congr rfl rfl hcount rfl
  | updateSnapshot => exact (hl i r hr).congr rfl rfl hcount rfl
  | deleteSnapshot => exact (hl i r hr).congr rfl rfl hcount rfl

theorem Path.linked (h : Path op kv kv') (hc : Consistent kv) (hfree : SentinelFree kv op)
    (hl : ∀ i r, kv.subs.get i = some r → Linked kv r) :
    ∀ i r, kv'.subs.get i = some r → Linked kv' r := by
  induction h with
  | refl => exact hl
  | tail hp hch ih =>
    exact fun i r hr => hch.linked (Path.evolves hp hc).consistent (Path.sentinelFree hp hfree) ih hr

/-- The topic of a record was there before the operation, or the record was. -/
theorem Change.topicOf (h : Change op kv kv') {i : Nat} {r : SubscriptionRecord}
    (hr : kv'.subs.get i = some r) :
    (∃ j r₀, kv.subs.get j = some r₀ ∧ r.topicId = r₀.topicId) ∨
      ∃ name topic opts t, op = .createSubscription name topic opts ∧
        TopicStore.get kv topic = .ok t ∧ r.topicId = t.id := by
  cases h with
  | rewrite w hr₀ hw =>
    rw [SortedMap.get_insert] at hr
    split_ifs at hr
    · cases hr
      exact Or.inl ⟨_, _, hr₀, hw.link_eq.2⟩
    · exact Or.inl ⟨i, r, hr, rfl⟩
  | deleteTopic w hr₀ _ hsubs _ =>
    rw [hsubs] at hr
    obtain ⟨x, hx, hxr⟩ := Option.map_eq_some_iff.mp hr
    split_ifs at hxr <;>
    · subst hxr
      exact Or.inl ⟨i, x, hx, rfl⟩
  | createSubscription w _ ht =>
    rw [SortedMap.get_insert] at hr
    split_ifs at hr
    · cases hr
      exact Or.inr ⟨_, _, _, _, rfl, ht, rfl⟩
    · exact Or.inl ⟨i, r, hr, rfl⟩
  | deleteSubscription =>
    rw [SortedMap.get_erase] at hr
    split_ifs at hr
    exact Or.inl ⟨i, r, hr, rfl⟩
  | _ => exact Or.inl ⟨i, r, hr, rfl⟩

theorem Path.topicOf (h : Path op kv kv') (hc : Consistent kv) {i : Nat} {r : SubscriptionRecord}
    (hr : kv'.subs.get i = some r) :
    (∃ j r₀, kv.subs.get j = some r₀ ∧ r.topicId = r₀.topicId) ∨
      (kv.topics.get r.topicId).isSome := by
  induction h generalizing i r with
  | refl => exact Or.inl ⟨i, r, hr, rfl⟩
  | tail hp hch ih =>
    rcases hch.topicOf hr with ⟨j, r₀, hr₀, hid⟩ | ⟨name, topic, opts, t, rfl, ht, hid⟩
    · rw [hid]
      exact ih hr₀
    · right
      obtain ⟨htop, hn⟩ := Path.sameTopics hp
      rw [topicGet_congr htop hn] at ht
      obtain ⟨k, _, _, hs⟩ := topicGet_eq_ok ht
      rw [hid, (hc.topics.record hs).2, hs]
      rfl

end Changes

section Runs

/-- What a run with the transitions `l` has reached. -/
structure Tied (l : List Transition) (s : Engine) : Prop where
  consistent : Consistent s.kv
  healthy : s.kv.Healthy
  linked : ∀ i r, s.kv.subs.get i = some r → Linked s.kv r
  origin : ∀ i r, s.kv.subs.get i = some r →
    (s.kv.topics.get r.topicId).isSome ∨ TopicDeleted l r.topicId
  gone : ∀ id, TopicDeleted l id → s.kv.topics.get id = none ∧ id ≤ s.kv.counter

theorem tied_start : Tied [] start where
  consistent := consistent_empty
  healthy _ := rfl
  linked _ _ h := by cases h
  origin _ _ h := by cases h
  gone := by
    rintro id ⟨_, h, _⟩
    cases h

theorem Tied.step {l : List Transition} {s : Engine} {i : Input} (h : Tied l s)
    (hfree : SentinelFree s.kv i.op) :
    Tied (l ++ [Run.transition OpenPubusb.step s i]) (OpenPubusb.step s i).2 := by
  have hpath := step_path i h.consistent h.healthy
  have hev := hpath.evolves h.consistent
  have hgone : ∀ id, TopicDeleted (l ++ [Run.transition OpenPubusb.step s i]) id →
      (OpenPubusb.step s i).2.kv.topics.get id = none ∧
        id ≤ (OpenPubusb.step s i).2.kv.counter := by
    rintro id ⟨tr, htr, hpre, hpost⟩
    rcases List.mem_append.mp htr with htr | htr
    · obtain ⟨hnone, hle⟩ := h.gone id ⟨tr, htr, hpre, hpost⟩
      refine ⟨Option.not_isSome_iff_eq_none.mp fun hsome => ?_, hle.trans hev.counter⟩
      have hnow : (OpenPubusb.step s i).2.kv.Allocated id .topic := hsome
      rcases hev.fresh hnow with hold | hnew
      · rw [Kv.Allocated, hnone] at hold
        cases hold
      · omega
    · rw [List.mem_singleton] at htr
      subst htr
      exact ⟨hpost, (h.consistent.topic_known hpre).trans hev.counter⟩
  refine ⟨hev.consistent, hev.healthy h.healthy, hpath.linked h.consistent hfree h.linked,
    fun j r hr => ?_, hgone⟩
  have hbefore : (s.kv.topics.get r.topicId).isSome ∨ TopicDeleted l r.topicId := by
    rcases hpath.topicOf h.consistent hr with ⟨k, r₀, hr₀, hid⟩ | hsome
    · rw [hid]
      exact h.origin k r₀ hr₀
    · exact Or.inl hsome
  by_cases hpost : ((OpenPubusb.step s i).2.kv.topics.get r.topicId).isSome
  · exact Or.inl hpost
  · right
    rcases hbefore with hpre | ⟨tr, htr, hdel⟩
    · exact ⟨_, List.mem_append_right _ List.mem_cons_self, hpre,
        Option.not_isSome_iff_eq_none.mp hpost⟩
    · exact ⟨tr, List.mem_append_left _ htr, hdel⟩

/-- The sentinel means that the topic was deleted. -/
def SentinelMeansDeleted (is : List Input) : Prop :=
  ∀ subId r, (Run.final step start is).kv.subs.get subId = some r →
    (r.topic = deletedTopic ↔ TopicDeleted (history is) r.topicId) ∧
    (¬ TopicDeleted (history is) r.topicId →
      ∃ t, (Run.final step start is).kv.topics.get r.topicId = some t ∧ t.name = r.topic) ∧
    (TopicDeleted (history is) r.topicId →
      (Run.final step start is).kv.topics.get r.topicId = none)

theorem sentinel_means_deleted (is : List Input)
    (h : ∀ tr ∈ history is, SentinelFree tr.pre.kv tr.input.op) : SentinelMeansDeleted is := by
  have htied : Tied (history is) (Run.final step start is) := by
    refine Run.history_inv (P := Tied) (C := fun _ tr => SentinelFree tr.pre.kv tr.input.op)
      (fun l s i hp hc => hp.step hc) tied_start fun l tr l' hl => h tr ?_
    rw [history, hl]
    exact List.mem_append_right _ List.mem_cons_self
  intro subId r hr
  rcases (htied.linked subId r hr).link with ⟨hdel, hnone⟩ | ⟨hlive, t, ht, hname⟩
  · have hgone : TopicDeleted (history is) r.topicId := by
      refine (htied.origin subId r hr).resolve_left fun hsome => ?_
      rw [hnone] at hsome
      cases hsome
    exact ⟨⟨fun _ => hgone, fun _ => hdel⟩, fun hno => absurd hgone hno, fun _ => hnone⟩
  · have hnot : ¬ TopicDeleted (history is) r.topicId := fun hgone => by
      rw [(htied.gone _ hgone).1] at ht
      cases ht
    exact ⟨⟨fun hdel => absurd hdel hlive, fun hgone => absurd hgone hnot⟩,
      fun _ => ⟨t, ht, hname⟩, fun hgone => absurd hgone hnot⟩

end Runs

/-- The topic is deleted and created again under its name. -/
def recreated : List Input :=
  setup {} ++ [⟨1, .deleteTopic "projects/p/topics/top1"⟩,
    ⟨2, .createTopic "projects/p/topics/top1" ∅ none none false false⟩]

theorem sentinel_means_deleted_of_recreated :
    ((Run.final step start recreated).kv.subs.get 2).map SubscriptionRecord.topic =
      some deletedTopic ∧ SentinelMeansDeleted recreated := by
  refine ⟨by decide +kernel, sentinel_means_deleted recreated ?_⟩
  refine Run.forall_trace_of_inputs fun i hi s => ?_
  intro name opts t hop
  have hname : ∀ i ∈ recreated, ∀ name opts, i.op ≠ .createSubscription name deletedTopic opts := by
    simp [recreated, setup, deletedTopic]
  exact absurd hop (hname i hi name opts)

/-- A topic is created under the sentinel, and a subscription on it. -/
def sentinelTopic : List Input :=
  [⟨0, .createTopic deletedTopic ∅ none none false false⟩,
   ⟨0, .createSubscription "projects/p/subscriptions/subA" deletedTopic {}⟩]

theorem live_topic_named_sentinel : ¬ SentinelMeansDeleted sentinelTopic := by
  intro h
  have hfacts : ((Run.final step start sentinelTopic).kv.subs.get 2).map
        (fun r => (r.topic, r.topicId)) = some (deletedTopic, 1) ∧
      ((Run.final step start sentinelTopic).kv.topics.get 1).isSome = true := by
    decide +kernel
  obtain ⟨hsub, hlive⟩ := hfacts
  obtain ⟨r, hr, hlink⟩ := Option.map_eq_some_iff.mp hsub
  have htopic : r.topic = deletedTopic := congrArg Prod.fst hlink
  have hid : r.topicId = 1 := congrArg Prod.snd hlink
  obtain ⟨hiff, _, hgone⟩ := h 2 r hr
  have hnone := hgone (hiff.mp htopic)
  rw [hid] at hnone
  rw [hnone] at hlive
  cases hlive

end OpenPubusb
