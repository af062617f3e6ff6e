import OpenPubusb.RefineCalls

/-! Every operation of the service refines the abstract machine, and so does a
step of any run from the empty store. -/

namespace OpenPubusb

open Hoare

variable {s t : Engine} {i : Input} {reply : Reply}

theorem refines_appended {kv' : Kv} (hwf : s.WellFormed) (hq : Quiet s i reply)
    (he : Extended s.kv kv') (hf : Filled s.kv kv') (hd : kv'.dlv = s.kv.dlv)
    (hc : kv'.cursors = s.kv.cursors) : Refines s i reply { s with kv := kv' } := by
  have hframe : CallFrame 0 s { s with kv := kv' } :=
    ⟨he, hf, fun i _ => by rw [hc], by rw [hc], fun i q _ => by rw [hd], fun h => h,
      fun hst => ⟨_, hst, rfl⟩, rfl⟩
  refine ⟨hframe.wellFormed hwf, hframe.counter_le, fun _ hr => hframe.record_of hr,
    fun subId seq => ⟨.idle, slotStep_of_quiet hq trivial ?_ trivial (fun _ h => by cases h) rfl⟩⟩
  simp only [Engine.slot, Effect.apply, hd, Kv.pending, hc, he.subs, he.present_eq hf]

theorem refines_attached {topicId attachSeq : Nat} {kv' : Kv} (hwf : s.WellFormed)
    (hq : Quiet s i reply) (h : Attached topicId attachSeq s.kv kv') :
    Refines s i reply { s with kv := kv' } := by
  refine ⟨⟨h.wellFormed hwf.kv, fun n => ?_, fun {id c} hc => ?_, hwf.coherent,
    fun {sid st} hst => ?_⟩, h.counter, fun {id r'} hid hr => ?_, fun subId seq => ?_⟩
  · rw [h.ok]
    exact hwf.healthy n
  · rcases Nat.lt_or_ge s.kv.counter id with hid | hid
    · exact (h.cursor hid hc).2.2
    · rw [(h.old id hid).2.1] at hc
      change ∃ r, kv'.subs.get id = some r
      rw [(h.old id hid).1]
      exact hwf.anchored hc
  · obtain ⟨h1, h2, h3⟩ := hwf.session hst
    refine ⟨h1, h2.trans h.counter, fun r hr => h3 r ?_⟩
    rw [← (h.old _ h2).1]
    exact hr
  · rw [(h.old id hid).1] at hr
    exact ⟨r', hr, rfl, fun _ => rfl⟩
  · rcases Nat.lt_or_ge s.kv.counter subId with hid | hid
    · refine ⟨.attached (kv'.pending subId seq), slotStep_of_quiet hq trivial ?_ hid
        (fun _ h => by cases h) rfl⟩
      simp only [Engine.slot, Effect.apply, h.dlv]
    · refine ⟨.idle, slotStep_of_quiet hq trivial ?_ trivial (fun _ h => by cases h) rfl⟩
      have hp : ∀ t q, kv'.present t q = s.kv.present t q := fun t q => by
        rw [Kv.present, Kv.present, TopicStore.currentTail, TopicStore.currentTail, h.msg,
          h.topicSeq]
      simp only [Engine.slot, Effect.apply, h.dlv, Kv.pending, (h.old subId hid).1,
        (h.old subId hid).2.1, hp]

/-- The message can at most have become undeliverable. -/
def Faded (x x' : Slot) : Prop := x' = x ∨ ∃ b, x' = (Effect.retired b).apply x

theorem Faded.trans {x y z : Slot} (h : Faded x y) (h' : Faded y z) : Faded x z := by
  rcases h with rfl | ⟨b, rfl⟩
  · exact h'
  · rcases h' with rfl | ⟨b', rfl⟩
    · exact Or.inr ⟨b, rfl⟩
    · cases b' with
      | true => exact Or.inr ⟨true, by simp [Effect.apply]⟩
      | false => exact Or.inr ⟨b, by simp [Effect.apply]⟩

theorem Pruned.faded {kv' : Kv} (h : Pruned s.kv kv') (subId seq : Nat) :
    Faded (s.slot subId seq) (({ s with kv := kv' } : Engine).slot subId seq) := by
  have hp : ∀ t q, kv'.present t q = s.kv.present t q := fun t q => by
    rw [Kv.present, Kv.present, TopicStore.currentTail, TopicStore.currentTail, h.msg, h.topicSeq]
  rcases h.rows subId with ⟨hs, hc⟩ | ⟨hs, hc⟩
  · left
    simp only [Engine.slot, h.dlv, Kv.pending, hs, hc, hp]
  · right
    exact ⟨false, by simp [Engine.slot, h.dlv, Kv.pending, hs, hc, Effect.apply]⟩

theorem Expired.faded {kv' : Kv} (h : Expired s.kv kv') (subId seq : Nat) :
    Faded (s.slot subId seq) (({ s with kv := kv' } : Engine).slot subId seq) := by
  rcases h.dlv subId seq with hd | ⟨hd, hp⟩
  · by_cases hp : kv'.pending subId seq = s.kv.pending subId seq
    · left
      simp only [Engine.slot, hd, hp]
    · right
      have hf : kv'.pending subId seq = false := by
        by_contra hn
        have ht : kv'.pending subId seq = true := by simpa using hn
        exact hp (ht.trans (h.pending_of ht).symm)
      exact ⟨false, by simp [Engine.slot, hd, hf, Effect.apply]⟩
  · right
    exact ⟨true, by simp [Engine.slot, hd, hp, Effect.apply]⟩

theorem refines_faded (hwf : t.WellFormed) (hq : Quiet s i reply)
    (hsub : ∀ {id r}, t.kv.subs.get id = some r → s.kv.subs.get id = some r)
    (hid : t.kv.idSeq = s.kv.idSeq) (hlog : t.deadLettered = s.deadLettered)
    (h : ∀ subId seq, Faded (s.slot subId seq) (t.slot subId seq)) : Refines s i reply t := by
  refine ⟨hwf, le_of_eq (by rw [Kv.counter, Kv.counter, hid]),
    fun {id r'} _ hr => ⟨r', hsub hr, rfl, fun _ => rfl⟩, fun subId seq => ?_⟩
  rcases h subId seq with hx | ⟨b, hx⟩
  · exact ⟨.idle, slotStep_of_quiet hq trivial hx trivial (fun _ h => by cases h) hlog⟩
  · exact ⟨.retired b, slotStep_of_quiet hq trivial hx trivial (fun _ h => by cases h) hlog⟩

theorem Pruned.engine {kv' : Kv} (h : Pruned s.kv kv') (hwf : s.WellFormed) :
    ({ s with kv := kv' } : Engine).WellFormed := by
  refine ⟨h.wellFormed hwf.kv, fun n => ?_, fun {id c} hc => ?_, hwf.coherent, fun {sid st} hst => ?_⟩
  · rw [h.ok]
    exact hwf.healthy n
  · rcases h.rows id with ⟨hs, hc'⟩ | ⟨_, hc'⟩
    · obtain ⟨r, hr⟩ := hwf.anchored (hc'.symm.trans hc)
      exact ⟨r, hs.trans hr⟩
    · rw [hc'] at hc
      cases hc
  · obtain ⟨h1, h2, h3⟩ := hwf.session hst
    refine ⟨h1, ?_, fun r hr => h3 r (h.subs_of hr)⟩
    rw [Kv.counter, h.idSeq]
    exact h2

theorem Expired.engine {kv' : Kv} (h : Expired s.kv kv') (hwf : s.WellFormed) :
    ({ s with kv := kv' } : Engine).WellFormed := by
  refine ⟨h.wellFormed hwf.kv, fun n => ?_, fun {id c} hc => ?_, hwf.coherent, fun {sid st} hst => ?_⟩
  · rw [h.ok]
    exact hwf.healthy n
  · rw [h.cursors] at hc
    rw [h.subs]
    exact hwf.anchored hc
  · rw [Kv.counter, h.idSeq, h.subs]
    exact hwf.session hst

theorem refines_pruned {kv' : Kv} (hwf : s.WellFormed) (hq : Quiet s i reply)
    (h : Pruned s.kv kv') : Refines s i reply { s with kv := kv' } :=
  refines_faded (h.engine hwf) hq h.subs_of h.idSeq rfl h.faded

theorem refines_swept {kv₁ kv₂ : Kv} (hwf : s.WellFormed) (hq : Quiet s i reply)
    (h₁ : Expired s.kv kv₁) (h₂ : Pruned kv₁ kv₂) : Refines s i reply { s with kv := kv₂ } := by
  have hwf₁ := h₁.engine hwf
  have h₂' : Pruned ({ s with kv := kv₁ } : Engine).kv kv₂ := h₂
  refine refines_faded (h₂'.engine hwf₁) hq (fun {id r} hr => ?_) (h₂.idSeq.trans h₁.idSeq) rfl
    fun subId seq => (h₁.faded subId seq).trans (h₂'.faded subId seq)
  have hr' := h₂.subs_of hr
  rwa [h₁.subs] at hr'

theorem refines_sweepLeases {j : Nat} {grace : Int} (hwf : s.WellFormed)
    (hop : i.op = .sweepSubscription j grace) :
    Refines s i .done { s with leases := sweepLeases s.leases j i.nowMs grace } := by
  have hq : Quiet s i .done := ⟨fun _ _ h => (by cases h), by rw [hop]; rfl, by rw [hop]; rfl⟩
  refine ⟨⟨hwf.kv, hwf.healthy, hwf.anchored, coherent_sweepLeases hwf.coherent .., hwf.session⟩,
    le_rfl, fun {id r'} _ hr => ⟨r', hr, rfl, fun _ => rfl⟩, fun subId seq => ?_⟩
  have hget := get_sweepLeases hwf.coherent j i.nowMs grace subId seq
  cases hl : s.leases.get subId seq with
  | none =>
    rw [hl] at hget
    refine ⟨.idle, slotStep_of_quiet hq trivial ?_ trivial (fun _ h => by cases h) rfl⟩
    simp only [Engine.slot, Effect.apply, hget, hl, Option.bind_none]
  | some l =>
    rw [hl, Option.bind_some] at hget
    split_ifs at hget with hlt hj
    · refine ⟨.idle, slotStep_of_quiet hq trivial ?_ trivial (fun _ h => by cases h) rfl⟩
      simp only [Engine.slot, Effect.apply, hget, hl]
    · subst hj
      refine ⟨.dropped (satSubI64 i.nowMs grace), slotStep_of_quiet hq ⟨l.record, ?_, not_lt.mp hlt⟩
        ?_ ⟨grace, hop, rfl⟩ (fun _ h => by cases h) rfl⟩
      · simp only [Engine.slot, hl, Option.map_some]
      · simp only [Engine.slot, Effect.apply, hget, Option.map_none]
    · refine ⟨.postponed (satSubI64 i.nowMs grace) i.nowMs,
        slotStep_of_quiet hq ⟨rfl, l.record, ?_, not_lt.mp hlt⟩ ?_ ⟨j, grace, hop, Ne.symm hj, rfl⟩
          (fun _ h => by cases h) rfl⟩
      · simp only [Engine.slot, hl, Option.map_some]
      · simp only [Engine.slot, Effect.apply, hget, hl, Option.map_some]
        rfl

theorem refines_released {sid : Nat} {st : SessionState} {streams : StreamRegistry}
    (hwf : s.WellFormed) (hop : i.op = .closeStream sid)
    (hst : s.streams.sessions.get sid = some st)
    (hstreams : streams = (s.streams.close sid).1)
    (h : Released st.info.subId (· ∈ st.outstanding.keys) { s with streams := streams } t) :
    Refines s i .done t := by
  have hq : Quiet s i .done := ⟨fun _ _ h => (by cases h), by rw [hop]; rfl, by rw [hop]; rfl⟩
  have hwf₁ : ({ s with streams := streams } : Engine).WellFormed := by
    refine ⟨hwf.kv, hwf.healthy, hwf.anchored, hwf.coherent, fun {sid' st'} hs => ?_⟩
    subst hstreams
    simp only [StreamRegistry.close, SortedMap.get_erase] at hs
    split_ifs at hs
    exact hwf.session hs
  refine ⟨hwf₁.of_rest h.rest (h.coherent hwf.coherent) h.streams, ?_, fun {id r'} _ hr => ?_,
    fun subId seq => ?_⟩
  · obtain ⟨dlv, w, hkv⟩ := h.rest
    rw [hkv]
    exact le_rfl
  · obtain ⟨dlv, w, hkv⟩ := h.rest
    rw [hkv] at hr
    exact ⟨r', hr, rfl, fun _ => rfl⟩
  · have hpend : t.kv.pending subId seq = s.kv.pending subId seq := pending_of_rest h.rest subId seq
    by_cases hk : subId = st.info.subId ∧ seq ∈ st.outstanding.keys
    · refine ⟨.released, slotStep_of_quiet hq trivial ?_ ⟨sid, st, hop, hst, hk.1.symm, hk.2⟩
        (fun _ h => by cases h) h.log⟩
      simp [Engine.slot, Effect.apply, hpend, (h.leases subId seq).1 hk, (h.dlv subId seq).1 hk]
    · refine ⟨.idle, slotStep_of_quiet hq trivial ?_ trivial (fun _ h => by cases h) h.log⟩
      simp only [Engine.slot, Effect.apply, hpend, (h.leases subId seq).2 hk,
        (h.dlv subId seq).2 hk]

theorem refines_restored {subId : Nat} {c : CursorRecord} (hwf : s.WellFormed)
    (hq : Quiet s i reply) (hcall : seekTarget s.kv i.op = some (subId, c))
    {r : SubscriptionRecord} (hr : s.kv.subs.get subId = some r) (h : Restored subId c s t) :
    Refines s i reply t := by
  obtain ⟨dlv, w, hkv⟩ := h.rest
  refine ⟨⟨?_, ?_, ?_, h.coherent hwf.coherent, ?_⟩, ?_, fun {id r'} _ hr => ?_, fun j seq => ?_⟩
  · rw [hkv]
    refine ⟨hwf.kv.record, fun {id c'} hc => ?_, hwf.kv.index, hwf.kv.log⟩
    simp only [SortedMap.get_insert] at hc
    split_ifs at hc with hid
    · rw [hid]
      exact (hwf.kv.record hr).2
    · exact hwf.kv.cursor hc
  · rw [hkv]
    exact hwf.healthy
  · rw [hkv]
    intro id c' hc
    simp only [SortedMap.get_insert] at hc
    split_ifs at hc with hid
    · exact ⟨r, hid ▸ hr⟩
    · exact hwf.anchored hc
  · rw [hkv, h.streams]
    exact hwf.session
  · rw [hkv]
    exact le_rfl
  · rw [hkv] at hr
    exact ⟨r', hr, rfl, fun _ => rfl⟩
  · by_cases hj : j = subId
    · subst hj
      refine ⟨.reset (t.kv.pending j seq), slotStep_of_quiet hq trivial ?_
        ⟨c, hcall, fun hdone => ?_⟩ (fun _ h => by cases h) h.log⟩
      · simp [Engine.slot, Effect.apply, h.leases, h.dlv]
      · rw [hkv]
        simp only [Kv.pending, SortedMap.get_insert_self, hr, hdone, Bool.not_true,
          Bool.false_and]
    · refine ⟨.idle, slotStep_of_quiet hq trivial ?_ trivial (fun _ h => by cases h) h.log⟩
      have hpend : t.kv.pending j seq = s.kv.pending j seq := by
        rw [hkv]
        simp only [Kv.pending, SortedMap.get_insert_ne _ _ hj]
        rfl
      simp [Engine.slot, Effect.apply, h.leases, h.dlv, hj, hpend]

theorem refines_restart (hwf : s.WellFormed) (hop : i.op = .restart) :
    Refines s i .done (.boot s.kv s.deadLettered) := by
  have hq : Quiet s i .done := ⟨fun _ _ h => (by cases h), by rw [hop]; rfl, by rw [hop]; rfl⟩
  refine ⟨⟨hwf.kv, hwf.healthy, hwf.anchored, coherent_recoveredLeases _, fun h => by cases h⟩,
    le_rfl, fun {id r'} _ hr => ⟨r', hr, rfl, fun _ => rfl⟩, fun subId seq => ?_⟩
  refine ⟨.recovered, slotStep_of_quiet hq trivial ?_ hop (fun _ h => by cases h) rfl⟩
  simp only [Engine.slot, Effect.apply, Engine.boot, get_recoveredLeases]
  cases hr : s.kv.dlv.get ⟨subId, seq⟩ with
  | none => simp [Engine.new, hr]
  | some r => simp [Engine.new, hr, leaseOfRow, Lease.record]

end OpenPubusb
