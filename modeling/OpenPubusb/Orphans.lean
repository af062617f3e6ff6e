import OpenPubusb.Isolation
import OpenPubusb.LogSteps
import OpenPubusb.PublishOrder

/-! What the leases and the delivery rows stand for. Subscriptions and messages
are removed without a word to the engine, so a lease or a row can outlive both. -/

namespace OpenPubusb

open Hoare

/-- The subscription exists, and the message is in the log of its topic. -/
def Kv.Carries (kv : Kv) (subId seq : Nat) : Prop :=
  ∃ r m, kv.subs.get subId = some r ∧ kv.msg.get ⟨r.topicId, seq⟩ = some m

def OrphanFree (s : Engine) : Prop :=
  ∀ subId seq, s.leases.get subId seq ≠ none ∨ s.kv.dlv.get ⟨subId, seq⟩ ≠ none →
    s.kv.Carries subId seq

/-- The step removes no subscription and no message that a lease or a row is left
for, and its deadline changes write no row of a message that is not there. -/
structure Sparing (tr : Transition) : Prop where
  deleted : ∀ i r, tr.pre.kv.subs.get i = some r → tr.input.op = .deleteSubscription r.name →
    ∀ q, ¬ (tr.pre.slot i q).Remembered
  leases : tr.input.op = .sweepRetention → ∀ i r q, tr.pre.kv.subs.get i = some r →
    tr.pre.leases.get i q ≠ none → SubscriptionStore.isExpired r tr.input.nowMs = false ∧
      ∀ m, tr.pre.kv.msg.get ⟨r.topicId, q⟩ = some m → tr.input.nowMs < m.expireAtMs
  rows : tr.input.op = .sweepRetention → ∀ i r q m, tr.pre.kv.subs.get i = some r →
    SubscriptionStore.isExpired r tr.input.nowMs = true →
    tr.pre.kv.msg.get ⟨r.topicId, q⟩ = some m → tr.pre.kv.dlv.get ⟨i, q⟩ ≠ none →
    m.expireAtMs ≤ tr.input.nowMs
  modified : ∀ i ackIds seconds, modifyCall tr.pre.kv tr.input.op = some (i, ackIds, seconds) →
    ∀ j q, j ≠ i → Hit tr.pre.leases ackIds j q → tr.pre.kv.Carries i q

section Changes

variable {op : Op} {kv kv' : Kv}

theorem Change.sub_stays (h : Change op kv kv') (hc : Consistent kv) {id : Nat}
    {r : SubscriptionRecord} (hr : kv.subs.get id = some r)
    (hop : op ≠ .deleteSubscription r.name ∧ op ≠ .sweepRetention) :
    ∃ r', kv'.subs.get id = some r' ∧ identity r' = identity r := by
  cases h with
  | @rewrite _ _ id' r₀ r₁ w hr₀ hw =>
    rw [(persist_rows hc hr₀ hw.identity_eq).1]
    split_ifs with hi
    · subst hi
      rw [hr₀, Option.some.injEq] at hr
      subst hr
      exact ⟨r₁, rfl, hw.identity_eq⟩
    · exact ⟨r, hr, rfl⟩
  | deleteTopic w _ _ hsubs _ =>
    simp only [hsubs, hr, Option.map_some]
    split_ifs
    · exact ⟨_, rfl, rfl⟩
    · exact ⟨r, rfl, rfl⟩
  | createSubscription =>
    refine ⟨r, ?_, rfl⟩
    have hle := hc.sub_known (by rw [hr]; rfl : (kv.subs.get id).isSome)
    rw [SortedMap.get_insert_ne _ _ (by omega)]
    exact hr
  | @deleteSubscription _ _ id' r₀ w hr₀ hdel =>
    refine ⟨r, ?_, rfl⟩
    rw [SortedMap.get_erase_ne]
    · exact hr
    · intro hi
      rw [hi, (hc.subs.record hr₀).2, hr₀, Option.some.injEq] at hr
      rw [← hr] at hop
      exact hdel.elim hop.1 hop.2
  | _ => exact ⟨r, hr, rfl⟩

theorem Path.sub_stays (h : Path op kv kv') (hc : Consistent kv) {id : Nat}
    {r : SubscriptionRecord} (hr : kv.subs.get id = some r)
    (hop : op ≠ .deleteSubscription r.name ∧ op ≠ .sweepRetention) :
    ∃ r', kv'.subs.get id = some r' ∧ identity r' = identity r := by
  induction h with
  | refl => exact ⟨r, hr, rfl⟩
  | tail hp hch ih =>
    obtain ⟨r₁, hr₁, he₁⟩ := ih
    have hname : r₁.name = r.name := congrArg (fun k => k.2.1) he₁
    obtain ⟨r₂, hr₂, he₂⟩ := hch.sub_stays (Path.evolves hp hc).consistent hr₁ (hname ▸ hop)
    exact ⟨r₂, hr₂, he₂.trans he₁⟩

end Changes

section Modify

variable {s : Engine}

/-- Whatever its ids name, a deadline change adds no lease, and a row only for the
message of a lease that an id names. -/
structure Rowed (subId : Nat) (ackIds : List String) (s t : Engine) : Prop where
  leases : ∀ i q, t.leases.get i q ≠ none → s.leases.get i q ≠ none
  dlv : ∀ i q, t.kv.dlv.get ⟨i, q⟩ ≠ none → s.kv.dlv.get ⟨i, q⟩ ≠ none ∨
    i = subId ∧ ∃ j, Hit s.leases ackIds j q

theorem Rowed.of_eq {subId : Nat} {ackIds : List String} {t u : Engine}
    (h : Rowed subId ackIds s t) (hl : u.leases = t.leases) (hd : u.kv.dlv = t.kv.dlv) :
    Rowed subId ackIds s u := by
  refine ⟨?_, ?_⟩
  · rw [hl]
    exact h.leases
  · rw [hd]
    exact h.dlv

theorem ensures_modify_rowed {subId : Nat} (ackIds : List String) (nowMs seconds : Int)
    (hwf : s.WellFormed) (E : Error → Engine → Prop) :
    Ensures (modifyAckDeadline subId ackIds nowMs seconds) s
      (fun _ t => Rowed subId ackIds s t) E := by
  induction ackIds generalizing s with
  | nil => exact ⟨fun _ _ h => h, fun _ _ h => Or.inl h⟩
  | cons ackId ackIds ih =>
    simp only [modifyAckDeadline, setLeases, ensures_bind, ensures_get, ensures_modify]
    rcases s.leases.resolveAck_cases ackId
      (fun i q l => (s.leases.reschedule i q l (LeaseTable.extendedDeadline nowMs seconds),
        .applied { l with deadlineMs := LeaseTable.extendedDeadline nowMs seconds })) with
      ⟨i, q, l, hl, hd, he⟩ | ⟨hno, he, hout⟩
    · have hext : s.leases.extend ackId nowMs seconds =
          (s.leases.reschedule i q l (LeaseTable.extendedDeadline nowMs seconds),
            .applied { l with deadlineMs := LeaseTable.extendedDeadline nowMs seconds }) := he
      have hseq : l.seq = q := (hwf.coherent.keyed hl).2
      simp only [hext, ensures_bind, ensures_onKv, putDlv, ensures_kvWrite_healthy hwf.healthy,
        hseq]
      refine (ih (s := { s with
        leases := s.leases.reschedule i q l (LeaseTable.extendedDeadline nowMs seconds)
        kv := _ }) (hwf.of_rest ⟨_, _, rfl⟩ (hwf.coherent.reschedule hl _) rfl)).mono
        (fun _ t h => ⟨fun j p hj => ?_, fun j p hj => ?_⟩) (fun _ _ h => h)
      · have hlease := h.leases j p hj
        rw [LeaseTable.get_reschedule] at hlease
        split_ifs at hlease with hk
        · rw [hk.1, hk.2, hl]
          exact Option.some_ne_none l
        · exact hlease
      · rcases h.dlv j p hj with hrow | ⟨rfl, k, x, hx, hn⟩
        · simp only [SortedMap.get_insert, RowKey.mk.injEq] at hrow
          split_ifs at hrow with hk
          · exact Or.inr ⟨hk.1, i, ackId, List.mem_cons_self, l, hk.2 ▸ hl, hk.2 ▸ hd⟩
          · exact Or.inl hrow
        · exact Or.inr ⟨rfl, k, x, List.mem_cons_of_mem _ hx, (names_reschedule hl _).mp hn⟩
    · have hext : (s.leases.extend ackId nowMs seconds).1 = s.leases := he
      rw [hext]
      have hskip : Ensures (modifyAckDeadline subId ackIds nowMs seconds) s
          (fun _ t => Rowed subId (ackId :: ackIds) s t) E := by
        refine (ih hwf).mono (fun _ t h => ⟨h.leases, fun j p hj => ?_⟩) (fun _ _ h => h)
        refine (h.dlv j p hj).imp id fun hrow => ?_
        obtain ⟨hj, k, x, hx, hn⟩ := hrow
        exact ⟨hj, k, x, List.mem_cons_of_mem _ hx, hn⟩
      cases ho : (s.leases.extend ackId nowMs seconds).2 with
      | applied l => exact absurd ho (hout l)
      | _ => exact hskip

theorem step_modify_rowed {i : Input} (hwf : s.WellFormed) {subId : Nat} {ackIds : List String}
    {seconds : Int} (hcall : modifyCall s.kv i.op = some (subId, ackIds, seconds)) :
    Rowed subId ackIds s (step s i).2 :=
  ensures_step (ensures_perform_modify hwf hcall
    (fun E => ensures_modify_rowed ackIds i.nowMs seconds hwf E) fun _ _ h hl hd _ => h.of_eq hl hd)

end Modify

section Steps

variable {s : Engine} {i : Input}

/-- What a lease stands for is still there after a step that removes nothing. -/
theorem Kv.Carries.step {j q : Nat} (h : s.kv.Carries j q) (hwf : s.WellFormed)
    (hc : Consistent s.kv) (hsweep : i.op ≠ .sweepRetention)
    (hdel : ∀ r, s.kv.subs.get j = some r → i.op ≠ .deleteSubscription r.name) :
    (OpenPubusb.step s i).2.kv.Carries j q := by
  obtain ⟨r, m, hr, hm⟩ := h
  obtain ⟨r', hr', hid⟩ :=
    (step_path i hc hwf.healthy).sub_stays hc hr ⟨hdel r hr, hsweep⟩
  have ht : r'.topicId = r.topicId := congrArg (fun k => k.2.2.1) hid
  refine ⟨r', m, hr', ?_⟩
  rw [ht]
  exact (step_grown hwf hc hsweep).kept hm

theorem step_remembered (hwf : s.WellFormed) (hk : Sparing (Run.transition step s i)) {j q : Nat}
    (h : ((step s i).2.slot j q).Remembered) :
    (s.slot j q).Remembered ∨ i.op ≠ .sweepRetention ∧
      (∀ name, i.op ≠ .deleteSubscription name) ∧ s.kv.Carries j q := by
  cases hcall : modifyCall s.kv i.op with
  | some call =>
    obtain ⟨j₀, ids, secs⟩ := call
    have hrowed := step_modify_rowed hwf hcall
    have hop : i.op ≠ .sweepRetention ∧ ∀ name, i.op ≠ .deleteSubscription name := by
      refine ⟨fun hop => ?_, fun name hop => ?_⟩ <;> rw [hop] at hcall <;> cases hcall
    have hlease : ∀ {k p}, s.leases.get k p ≠ none → (s.slot k p).Remembered := by
      intro k p hl
      refine Or.inl fun hn => hl ?_
      exact Option.map_eq_none_iff.mp hn
    rcases h with h | h
    · refine Or.inl (hlease (hrowed.leases j q fun hn => h ?_))
      rw [Engine.slot, hn]
      rfl
    · rcases hrowed.dlv j q h with hrow | ⟨rfl, k, hhit⟩
      · exact Or.inl (Or.inr hrow)
      · by_cases hkj : k = j
        · subst hkj
          obtain ⟨_, _, l, hl, _⟩ := hhit
          exact Or.inl (hlease (by rw [hl]; exact Option.some_ne_none l))
        · exact Or.inr ⟨hop.1, hop.2, hk.modified _ _ _ hcall k q hkj hhit⟩
  | none =>
    have hown : NoForeignModify s i.op := by
      intro _ _ _ hsome
      rw [hcall] at hsome
      cases hsome
    obtain ⟨e, he⟩ := (step_refines hwf hown).slots j q
    rw [he.slot] at h
    rcases Effect.remembered_of_apply h with h | ⟨r, rfl⟩
    · exact Or.inl h
    · obtain ⟨secs, hlease, _, _, hcarries⟩ := he.cause
      refine Or.inr ⟨fun hop => ?_, fun name hop => ?_, hcarries⟩ <;>
        rw [hop] at hlease <;> cases hlease

/-- The retention sweep removes a row with its message, and neither the message nor
the subscription of a lease. -/
theorem OrphanFree.sweep (hs : OrphanFree s) (hwf : s.WellFormed) (hc : Consistent s.kv)
    (hop : i.op = .sweepRetention) (hk : Sparing (Run.transition OpenPubusb.step s i)) :
    OrphanFree (OpenPubusb.step s i).2 := by
  obtain ⟨kv₁, hexp, hcleared, hprune, hun, hleases⟩ := step_swept hwf hc hop
  intro j q h
  have hold : s.leases.get j q ≠ none ∨ s.kv.dlv.get ⟨j, q⟩ ≠ none := by
    refine h.imp (fun hl => ?_) fun hd => ?_
    · rw [hleases] at hl
      exact hl
    · obtain ⟨row, hrow⟩ := Option.ne_none_iff_exists'.mp hd
      rw [hprune.dlv] at hrow
      rw [hcleared.dlv hrow]
      exact Option.some_ne_none row
  obtain ⟨r, m, hr, hm⟩ := hs j q hold
  have hlive : i.nowMs < m.expireAtMs := by
    by_contra hle
    have hgone := hcleared.expired hm (not_lt.mp hle)
    rcases h with hl | hd
    · rw [hleases] at hl
      exact hle ((hk.leases hop j r q hr hl).2 m hm)
    · refine hd ?_
      rw [hprune.dlv]
      refine hcleared.rows (by rw [hm]; rfl) hgone ?_
      exact (hc.idx r.topicId j).mpr ⟨r, hr, rfl⟩
  have hfresh : SubscriptionStore.isExpired r i.nowMs = false := by
    by_contra hne
    rw [Bool.not_eq_false] at hne
    rcases hold with hl | hd
    · have hno := (hk.leases hop j r q hr hl).1
      change SubscriptionStore.isExpired r i.nowMs = false at hno
      rw [hne] at hno
      cases hno
    · exact absurd (hk.rows hop j r q m hr hne hm hd) (not_le.mpr hlive)
  have hr₁ : kv₁.subs.get j = some r := by
    rw [hexp.subs]
    exact hr
  refine ⟨r, m, hun j r hr₁ hfresh, ?_⟩
  rw [hprune.msg]
  rcases hcleared.msg hm with hm' | ⟨_, hle⟩
  · exact hm'
  · exact absurd hle (not_le.mpr hlive)

theorem OrphanFree.step (hs : OrphanFree s) (hwf : s.WellFormed) (hc : Consistent s.kv)
    (hk : Sparing (Run.transition OpenPubusb.step s i)) : OrphanFree (OpenPubusb.step s i).2 := by
  by_cases hop : i.op = .sweepRetention
  · exact hs.sweep hwf hc hop hk
  · intro j q h
    have hrem : ((OpenPubusb.step s i).2.slot j q).Remembered := by
      refine h.imp (fun hl hn => hl ?_) id
      exact Option.map_eq_none_iff.mp hn
    rcases step_remembered hwf hk hrem with hold | ⟨_, hdel, hcarries⟩
    · have hcarries : s.kv.Carries j q := by
        refine hs j q (hold.imp (fun hl hn => hl ?_) id)
        rw [Engine.slot, hn]
        rfl
      exact hcarries.step hwf hc hop fun r hr hdel => hk.deleted j r hr hdel q hold
    · exact hcarries.step hwf hc hop fun r _ => hdel r.name

end Steps

theorem no_orphans (is : List Input) (h : ∀ tr ∈ history is, Sparing tr) :
    OrphanFree (Run.final step start is) := by
  have hall : ((Run.final step start is).WellFormed ∧ Consistent (Run.final step start is).kv) ∧
      OrphanFree (Run.final step start is) := by
    refine Run.inv_final (P := fun s => (s.WellFormed ∧ Consistent s.kv) ∧ OrphanFree s)
      (C := Sparing) (fun s i hp hk => ?_) ⟨⟨wellFormed_start, consistent_empty⟩, ?_⟩ h
    · obtain ⟨⟨hwf, hc⟩, hs⟩ := hp
      exact ⟨⟨wellFormed_step hwf i, ((step_path i hc hwf.healthy).evolves hc).consistent⟩,
        hs.step hwf hc hk⟩
    · intro j q hsome
      rcases hsome with hsome | hsome <;> exact absurd rfl hsome
  exact hall.2

/-- What `Sparing` asks for, as a check for runs without a deletion. -/
def sparingCheck (tr : Transition) : Bool :=
  (match tr.input.op with
    | .deleteSubscription _ => false
    | _ => true) &&
  ownIds tr.pre.kv tr.input.op &&
  (tr.pre.kv.subs.entries.all fun e => !SubscriptionStore.isExpired e.2 tr.input.nowMs) &&
  tr.pre.kv.msg.entries.all fun e => e.2.expireAtMs > tr.input.nowMs

theorem Sparing.of_check {tr : Transition} (h : sparingCheck tr = true) : Sparing tr := by
  simp only [sparingCheck, Bool.and_eq_true] at h
  obtain ⟨⟨⟨hdel, hown⟩, hsubs⟩, hmsgs⟩ := h
  have hlive : ∀ {i r}, tr.pre.kv.subs.get i = some r →
      SubscriptionStore.isExpired r tr.input.nowMs = false := by
    intro i r hr
    have hall := List.all_eq_true.mp hsubs _ (SortedMap.mem_entries.mpr hr)
    simpa using hall
  refine ⟨fun i r _ hop => ?_, fun _ i r q hr _ => ⟨hlive hr, fun m hm => ?_⟩,
    fun _ i r q m hr hexp => ?_, fun i ackIds secs hcall j q hne hhit => ?_⟩
  · rw [hop] at hdel
    cases hdel
  · exact of_decide_eq_true (List.all_eq_true.mp hmsgs _ (SortedMap.mem_entries.mpr hm))
  · rw [hlive hr] at hexp
    cases hexp
  · obtain ⟨x, hx, hn⟩ := hhit
    exact absurd ((OwnIds.of_check hown).modify i ackIds secs hcall x hx j q hn) hne

/-- A pull, a deadline change and a restart. -/
theorem no_orphans_of_restart :
    (Run.final step start (setup {} ++ [pullA 0, extendA 5 20, ⟨5, .restart⟩])).leases.get 2 1 ≠
        none ∧
      OrphanFree (Run.final step start (setup {} ++ [pullA 0, extendA 5 20, ⟨5, .restart⟩])) := by
  have hfacts : ((Run.final step start
        (setup {} ++ [pullA 0, extendA 5 20, ⟨5, .restart⟩])).leases.get 2 1).isSome = true ∧
      (history (setup {} ++ [pullA 0, extendA 5 20, ⟨5, .restart⟩])).all sparingCheck = true := by
    decide +kernel
  refine ⟨Option.isSome_iff_ne_none.mp hfacts.1, no_orphans _ fun tr htr => ?_⟩
  exact .of_check (List.all_eq_true.mp hfacts.2 tr htr)

/-- The lease of a deleted subscription stays. -/
theorem deleted_subscription_keeps_lease :
    ¬ OrphanFree (Run.final step start (setup {} ++
      [pullA 0, ⟨0, .deleteSubscription "projects/p/subscriptions/subA"⟩])) := by
  intro h
  have hfacts : ((Run.final step start (setup {} ++
        [pullA 0, ⟨0, .deleteSubscription "projects/p/subscriptions/subA"⟩])).leases.get 2 1).isSome =
          true ∧
      ((Run.final step start (setup {} ++
        [pullA 0, ⟨0, .deleteSubscription "projects/p/subscriptions/subA"⟩])).kv.subs.get 2).isNone =
          true := by
    decide +kernel
  generalize Run.final step start (setup {} ++
    [pullA 0, ⟨0, .deleteSubscription "projects/p/subscriptions/subA"⟩]) = s at h hfacts
  obtain ⟨r, _, hr, _⟩ := h 2 1 (Or.inl (Option.isSome_iff_ne_none.mp hfacts.1))
  rw [hr] at hfacts
  cases hfacts.2

end OpenPubusb
