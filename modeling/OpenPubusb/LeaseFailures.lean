import OpenPubusb.CatalogOps
import OpenPubusb.LeaseContract

/-! When `lease_next` fails, and what it has done by then. On a store that takes every
write it fails exactly at a message whose dead-letter topic cannot take it. -/

namespace OpenPubusb

open Hoare

section Refusal

variable {a : LeaseArgs} {s t : Engine} {c : CursorRecord}

/-- The activity time is written after the leases, and its failure is ignored. -/
theorem pull_ok_iff_leaseNext {name : String} {sub : SubscriptionRecord} {maxMessages nowMs : Int}
    (hsub : SubscriptionStore.get s.kv name = .ok sub)
    (hlive : sub.detached = false ∧ sub.topic ≠ deletedTopic)
    (hmax : 1 ≤ maxMessages ∧ maxMessages ≤ 1000) :
    (∃ ms t, PubSubService.pull name maxMessages nowMs s = .ok ms t) ↔
      ∃ out t, leaseNext sub.id sub.topicId maxMessages nowMs sub.ackDeadlineSecs s = .ok out t := by
  have hvalid : validatePullMaxMessages (max maxMessages 1) = .ok () := by
    rw [max_eq_left hmax.1]
    exact if_pos hmax
  have hattached : ¬ (sub.detached = true ∨ sub.topic = deletedTopic) := by
    simp [hlive.1, hlive.2]
  have hpull : Ensures (PubSubService.pull name maxMessages nowMs) s
      (fun _ _ => ∃ out t, leaseNext sub.id sub.topicId maxMessages nowMs sub.ackDeadlineSecs s =
        .ok out t)
      (fun _ _ => ∃ e t, leaseNext sub.id sub.topicId maxMessages nowMs sub.ackDeadlineSecs s =
        .error e t) := by
    simp only [PubSubService.pull, PubSubService.pullDelivered, PubSubService.attached, hvalid,
      liftResult, ensures_bind, ensures_pure, ensures_get, hsub, if_neg hattached]
    unfold Ensures
    cases hr : leaseNext sub.id sub.topicId maxMessages nowMs sub.ackDeadlineSecs s with
    | ok out t =>
      have htouch : Ensures (PubSubService.touch sub.id nowMs) t (fun _ _ => True)
          (fun _ _ => False) := by
        simp only [PubSubService.touch, ensures_ignore, ensures_onKv]
        unfold Ensures
        cases SubscriptionStore.touch sub.id nowMs t.kv <;> trivial
      exact htouch.mono (fun _ _ _ => ⟨out, t, rfl⟩) (fun _ _ h => h.elim)
    | error e t => exact ⟨e, t, rfl⟩
  cases hr : PubSubService.pull name maxMessages nowMs s with
  | ok ms t => exact ⟨fun _ => hpull.of_ok hr, fun _ => ⟨ms, t, rfl⟩⟩
  | error e t =>
    refine ⟨fun h => ?_, fun h => ?_⟩
    · obtain ⟨ms, u, hok⟩ := h
      cases hok
    obtain ⟨out, u, hok⟩ := h
    obtain ⟨e', u', herr⟩ := hpull.of_error hr
    rw [hok] at herr
    cases herr

/-- In every reachable state, a pull on a live subscription returns exactly when it
reaches no message that is due for a dead-letter topic which cannot take it. -/
theorem pull_returns_iff (is : List Input) {name : String} {sub : SubscriptionRecord}
    (hsub : SubscriptionStore.get (Run.final step start is).kv name = .ok sub)
    (hlive : sub.detached = false ∧ sub.topic ≠ deletedTopic) (maxMessages nowMs : Int)
    (hmax : 1 ≤ maxMessages ∧ maxMessages ≤ 1000) :
    (∃ ms t, PubSubService.pull name maxMessages nowMs (Run.final step start is) = .ok ms t) ↔
      ∃ c, (Run.final step start is).kv.cursors.get sub.id = some c ∧ NoneUndeliverable
        (leaseArgs (Run.final step start is) sub.id sub.topicId maxMessages nowMs
          sub.ackDeadlineSecs) (Run.final step start is) c := by
  obtain ⟨hcons, hh⟩ := consistent_final is
  have hpos : 0 < maxMessages := by omega
  obtain ⟨id, _, hid⟩ := get_eq_ok hsub
  have hcur : ((Run.final step start is).kv.cursors.get sub.id).isSome := by
    rw [hcons.cursors, (hcons.subs.record hid).2, hid]
    rfl
  obtain ⟨c, hc⟩ := Option.isSome_iff_exists.mp hcur
  rw [pull_ok_iff_leaseNext hsub hlive hmax, leaseNext_ok_iff hh _ hpos _ _ hc, hc]
  simp only [Option.some.injEq, exists_eq_left']

/-- A dead-letter topic whose name is not one of a topic; `create` takes it. -/
def badTopicOptions : CreateSubscriptionOptions :=
  { deadLetterTopic := some "dead-letters", maxDeliveryAttempts := some 5 }

/-- The message is delivered five times, and expires each time. -/
def wedgedRun : List Input :=
  setup badTopicOptions ++ [pullA 0, pullA 20000, pullA 40000, pullA 60000, pullA 80000]

def canPull (kv : Kv) (name : String) : Bool :=
  match SubscriptionStore.get kv name with
  | .ok sub => !sub.detached && sub.topic ≠ deletedTopic
  | .error _ => false

theorem exists_of_canPull {kv : Kv} {name : String} (h : canPull kv name = true) :
    ∃ sub, SubscriptionStore.get kv name = .ok sub ∧
      sub.detached = false ∧ sub.topic ≠ deletedTopic := by
  unfold canPull at h
  cases hg : SubscriptionStore.get kv name with
  | ok sub =>
    rw [hg] at h
    simp only [Bool.and_eq_true, Bool.not_eq_true', decide_eq_true_eq] at h
    exact ⟨sub, rfl, h⟩
  | error e =>
    rw [hg] at h
    cases h

def returns {σ α : Type} (r : EStateM.Result Error σ α) : Bool :=
  match r with
  | .ok _ _ => true
  | .error _ _ => false

theorem returns_iff {σ α : Type} {r : EStateM.Result Error σ α} :
    returns r = true ↔ ∃ x t, r = .ok x t := by
  cases r with
  | ok x t => exact ⟨fun _ => ⟨x, t, rfl⟩, fun _ => rfl⟩
  | error e t => exact ⟨nofun, nofun⟩

/-- The first pull reaches no such message. -/
theorem pull_returns_first : ∃ sub c,
    SubscriptionStore.get (Run.final step start (setup badTopicOptions)).kv
      "projects/p/subscriptions/subA" = .ok sub ∧
    NoneUndeliverable (leaseArgs (Run.final step start (setup badTopicOptions)) sub.id sub.topicId 1
      0 sub.ackDeadlineSecs) (Run.final step start (setup badTopicOptions)) c := by
  have hpull : canPull (Run.final step start (setup badTopicOptions)).kv
      "projects/p/subscriptions/subA" = true := by
    decide +kernel
  have hok : returns (PubSubService.pull "projects/p/subscriptions/subA" 1 0
      (Run.final step start (setup badTopicOptions))) = true := by
    decide +kernel
  obtain ⟨sub, hsub, hlive⟩ := exists_of_canPull hpull
  obtain ⟨c, _, hnone⟩ :=
    (pull_returns_iff (setup badTopicOptions) hsub hlive 1 0 (by decide)).mp (returns_iff.mp hok)
  exact ⟨sub, c, hsub, hnone⟩

/-- After five deliveries the message is due for a topic that does not exist under any
name, and every pull fails on it. -/
theorem pull_wedged : ¬ ∀ (is : List Input) (name : String) (sub : SubscriptionRecord)
    (maxMessages nowMs : Int), SubscriptionStore.get (Run.final step start is).kv name = .ok sub →
      sub.detached = false ∧ sub.topic ≠ deletedTopic → 1 ≤ maxMessages ∧ maxMessages ≤ 1000 →
      ∃ ms t, PubSubService.pull name maxMessages nowMs (Run.final step start is) = .ok ms t := by
  intro h
  have hpull : canPull (Run.final step start wedgedRun).kv "projects/p/subscriptions/subA" = true := by
    decide +kernel
  have hbad : returns (PubSubService.pull "projects/p/subscriptions/subA" 1 100000
      (Run.final step start wedgedRun)) = false := by
    decide +kernel
  obtain ⟨sub, hsub, hlive⟩ := exists_of_canPull hpull
  have hok := returns_iff.mpr (h wedgedRun _ sub 1 100000 hsub hlive (by decide))
  rw [hbad] at hok
  cases hok

end Refusal

section Atomicity

variable {a : LeaseArgs} {s t u : Engine} {c : CursorRecord} {sc sc' : Scan}

/-- The lease table, the rows and the cursor of the subscription, and the logs are the
same. -/
structure Untouched (subId : Nat) (s t : Engine) : Prop where
  leases : ∀ i q, t.leases.get i q = s.leases.get i q
  dlv : ∀ q, t.kv.dlv.get ⟨subId, q⟩ = s.kv.dlv.get ⟨subId, q⟩
  cursor : t.kv.cursors.get subId = s.kv.cursors.get subId
  log : t.kv.msg = s.kv.msg

def Verdict.acts : Verdict → Bool
  | .skip => false
  | .filtered => false
  | _ => true

/-- The dead-letter topic does not take the message: it refuses it, or one of the two
writes of its append fails. -/
def Verdict.Untaken (kv : Kv) : Verdict → Prop
  | .refuse _ => True
  | .forward _ _ => kv.ok kv.writes = false ∨ kv.ok (kv.writes + 1) = false
  | _ => False

def writesOf (vs : List Judged) : Nat :=
  totalCost vs + if vs.any fun v => v.verdict.finishes then 1 else 0

/-- No message that the call reaches is refused, and the store takes its writes. -/
def GoesThrough (a : LeaseArgs) (s : Engine) (c : CursorRecord) : Prop :=
  NoneUndeliverable a s c ∧
    ∀ k < writesOf (planned a s c), s.kv.ok (s.kv.writes + k) = true

/-- The call goes through, or the first ready message that it reaches is one that the
dead-letter topic does not take. -/
def FailsFirst (a : LeaseArgs) (s : Engine) (c : CursorRecord) : Prop :=
  GoesThrough a s c ∨
    ∀ v, (planned a s c).find? (fun v => v.verdict.acts) = some v → v.verdict.Untaken s.kv

theorem cost_of_not_acts {v : Verdict} (h : v.acts = false) : v.cost = 0 := by
  cases v with
  | skip => rfl
  | filtered => rfl
  | _ => cases h

theorem totalCost_append (vs ws : List Judged) :
    totalCost (vs ++ ws) = totalCost vs + totalCost ws := by
  rw [totalCost, List.map_append, List.sum_append]
  rfl

theorem totalCost_cons (v : Judged) (vs : List Judged) :
    totalCost (v :: vs) = v.verdict.cost + totalCost vs := by
  simp only [totalCost, List.map_cons, List.sum_cons]

theorem totalCost_of_not_acts {vs : List Judged} (h : ∀ v ∈ vs, v.verdict.acts = false) :
    totalCost vs = 0 := by
  induction vs with
  | nil => rfl
  | cons v vs ih =>
    rw [totalCost_cons, cost_of_not_acts (h v List.mem_cons_self),
      ih fun x hx => h x (List.mem_cons_of_mem _ hx)]

theorem ScanExact.kv_kept {vs : List Judged} (h : ScanExact a vs s sc t sc') :
    t.kv.ok = s.kv.ok ∧ t.kv.writes = s.kv.writes + totalCost vs ∧
      t.kv.cursors = s.kv.cursors := by
  obtain ⟨dlv, hkv⟩ := h.kv
  obtain ⟨_, _, hrows⟩ := appendRows_kept s.kv (vs.filterMap (Judged.copy s.kv a))
  rw [hkv, hrows]
  exact ⟨rfl, rfl, rfl⟩

theorem ScanExact.kv_idle {vs : List Judged} (h : ScanExact a vs s sc t sc')
    (hvs : ∀ v ∈ vs, v.verdict.acts = false) : ∃ dlv, t.kv = { s.kv with dlv := dlv } := by
  have hcopies : vs.filterMap (Judged.copy s.kv a) = [] := by
    refine List.filterMap_eq_nil_iff.mpr fun v hv => ?_
    have hacts := hvs v hv
    unfold Judged.copy
    cases hverdict : v.verdict with
    | forward dlq n =>
      rw [hverdict] at hacts
      cases hacts
    | _ => rfl
  obtain ⟨dlv, hkv⟩ := h.kv
  rw [hcopies, totalCost_of_not_acts hvs] at hkv
  exact ⟨dlv, hkv⟩

theorem ScanExact.untouched {vs : List Judged} (h : ScanExact a vs s sc t sc')
    (hvs : ∀ v ∈ vs, v.verdict.acts = false) : Untouched a.subId s t := by
  have hkept : ∀ i q, t.leases.get i q = s.leases.get i q ∧
      t.kv.dlv.get ⟨i, q⟩ = s.kv.dlv.get ⟨i, q⟩ := by
    intro i q
    by_cases hin : i = a.subId ∧ ∃ v ∈ vs, v.seq = q
    · obtain ⟨rfl, v, hv, rfl⟩ := hin
      obtain ⟨hl, hr⟩ := h.visited v hv
      have hacts := hvs v hv
      rw [hl, hr]
      cases hverdict : v.verdict with
      | skip => exact ⟨rfl, rfl⟩
      | filtered => exact ⟨rfl, rfl⟩
      | _ =>
        rw [hverdict] at hacts
        cases hacts
    · exact h.others i q fun hi v hv hq => hin ⟨hi, v, hv, hq⟩
  obtain ⟨dlv, hkv⟩ := h.kv_idle hvs
  exact ⟨fun i q => (hkept i q).1, fun q => (hkept a.subId q).2, by rw [hkv], by rw [hkv]⟩

theorem ScanExact.not_untaken {vs : List Judged} (h : ScanExact a vs s sc t sc') {v : Judged}
    (hv : v ∈ vs) : ¬ v.verdict.Untaken s.kv := by
  obtain ⟨pre, post, rfl⟩ := List.append_of_mem hv
  intro hun
  cases hverdict : v.verdict with
  | refuse e => exact h.taken v hv e hverdict
  | forward dlq n =>
    have hcost : 3 ≤ totalCost (pre ++ v :: post) := by
      rw [totalCost_append, totalCost_cons, hverdict]
      simp only [Verdict.cost]
      omega
    have h0 := h.ok 0 (by omega)
    have h1 := h.ok 1 (by omega)
    rw [hverdict] at hun
    rw [Nat.add_zero] at h0
    simp [Verdict.Untaken, h0, h1] at hun
  | _ =>
    rw [hverdict] at hun
    exact hun

/-- No message was delivered as often as the count can tell, and no log has a row past its
tail. -/
structure Countable (subId : Nat) (s : Engine) : Prop where
  attempts : ∀ q, s.priorAttempts subId q < u32Max
  tail : ∀ i q, TopicStore.currentTail s.kv i < q → s.kv.msg.get ⟨i, q⟩ = none

theorem prior_of_acts {v : Judged} (hv : v ∈ planned a s c) (hacts : v.verdict.acts = true) :
    v.verdict = redeliver s.kv (reclaimPolicy s.kv a.subId) v.message
      (s.priorAttempts a.subId v.seq) := by
  have hjudge := (mem_planned hv).2
  cases hr : ready a s c (v.seq, v.message) with
  | true => rw [hjudge, judge_of_ready hr]
  | false =>
    have hnot := judge_of_not_ready hr
    rw [← hjudge] at hnot
    rw [hnot] at hacts
    split_ifs at hacts <;> cases hacts

theorem redeliver_eq {kv : Kv} {policy : ReclaimPolicy} {m : MessageRecord} {n : Nat} :
    (∃ e, redeliver kv policy m n = .refuse e) ∨ redeliver kv policy m n = .lease n ∨
      shouldDeadLetter n policy.deadLetter = true ∧ ∃ dlq, redeliver kv policy m n = .forward dlq n := by
  unfold redeliver
  split_ifs with hsd
  · cases TopicStore.get kv (policy.deadLetter.topic.getD "") with
    | error e =>
      cases e with
      | notFound e => exact Or.inr (Or.inl rfl)
      | _ => exact Or.inl ⟨_, rfl⟩
    | ok dlq =>
      cases TopicStore.validateBatch [deadLetterCopy m policy n] with
      | error e => exact Or.inl ⟨e, rfl⟩
      | ok u => exact Or.inr (Or.inr ⟨hsd, dlq, rfl⟩)
  · exact Or.inr (Or.inl rfl)

theorem newLease_ne (hs : Countable a.subId s) {v : Judged} (hv : v ∈ planned a s c) {n : Nat}
    (hlease : v.verdict = .lease n) :
    some (newLease a v.seq n) ≠ s.leases.get a.subId v.seq := by
  intro hsame
  have hn : n = s.priorAttempts a.subId v.seq := by
    have hprior := prior_of_acts hv (by rw [hlease]; rfl)
    rw [hlease] at hprior
    rcases redeliver_eq with ⟨e, he⟩ | h | ⟨_, dlq, h⟩
    · rw [he] at hprior
      cases hprior
    · rw [h] at hprior
      exact Verdict.lease.inj hprior
    · rw [h] at hprior
      cases hprior
  have hlast : s.lastDelivery a.subId v.seq = some (newLease a v.seq n).record := by
    rw [Engine.lastDelivery, ← hsame]
    rfl
  have hprior : s.priorAttempts a.subId v.seq = satSuccU32 n := by
    rw [Engine.priorAttempts, hlast]
    rfl
  have hlt := hs.attempts v.seq
  unfold satSuccU32 at hprior
  omega

/-- The treatment of a ready message that is not refused shows in its lease or its row. -/
theorem changed_of_acts (hs : Countable a.subId s) {v : Judged} (hv : v ∈ planned a s c)
    (hacts : v.verdict.acts = true) (htaken : ∀ e, v.verdict ≠ .refuse e) :
    v.verdict.leaseAfter a v.seq (s.leases.get a.subId v.seq) ≠ s.leases.get a.subId v.seq ∨
      v.verdict.rowAfter a v.seq (s.kv.dlv.get ⟨a.subId, v.seq⟩) ≠ s.kv.dlv.get ⟨a.subId, v.seq⟩ := by
  have hprior := prior_of_acts hv hacts
  rcases redeliver_eq with ⟨e, he⟩ | hlease | ⟨hsd, dlq, hforward⟩
  · exact absurd (hprior.trans he) (htaken e)
  · rw [hprior.trans hlease]
    exact Or.inl (newLease_ne hs hv (hprior.trans hlease))
  · -- it was delivered before, and nothing of that is left
    rw [hprior.trans hforward]
    by_contra hsame
    simp only [Verdict.leaseAfter, Verdict.rowAfter, not_or, not_not] at hsame
    have hnone : s.lastDelivery a.subId v.seq = none := by
      rw [Engine.lastDelivery, ← hsame.1, ← hsame.2]
      rfl
    simp only [shouldDeadLetter, Engine.priorAttempts, hnone, Option.map_none, Option.getD_none,
      Bool.and_eq_true, decide_eq_true_eq] at hsd
    omega

theorem planned_ascending : (planned a s c).Pairwise fun v w => v.seq < w.seq := by
  have hrows : (judgeAll a s c (scanPrefix s.kv.msg a.topicId)).Pairwise fun v w => v.seq < w.seq :=
    List.pairwise_map.mpr (List.pairwise_map.mp (scanPrefix_increasing s.kv.msg a.topicId))
  exact hrows.sublist (Budget.visited_initial _ _ _).sublist

section Broken

variable {seq : Nat} {m : MessageRecord} {e : Error} {v : Verdict}

theorem Broke.acts (h : Broke a seq m u t e v) : v.acts = true := by
  cases v with
  | skip => exact h.elim
  | filtered => exact h.elim
  | _ => rfl

theorem Broke.fails (h : Broke a seq m u t e v) :
    (∃ e', v = .refuse e') ∨ ∃ k < v.cost, u.kv.ok (u.kv.writes + k) = false := by
  cases v with
  | skip => exact h.elim
  | filtered => exact h.elim
  | refuse e' => exact Or.inl ⟨e', rfl⟩
  | lease n => exact Or.inr ⟨0, Nat.zero_lt_one, h.1⟩
  | forward dlq n =>
    rcases h with ⟨h0, _⟩ | ⟨_, h1, _⟩ | ⟨_, _, h2, _⟩
    · exact Or.inr ⟨0, by simp [Verdict.cost], h0⟩
    · exact Or.inr ⟨1, by simp [Verdict.cost], h1⟩
    · exact Or.inr ⟨2, by simp [Verdict.cost], h2⟩

/-- A visit that fails touches no lease but that of its message, and no row. -/
theorem Broke.others (h : Broke a seq m u t e v) :
    (∀ i q, ¬ (i = a.subId ∧ q = seq) → t.leases.get i q = u.leases.get i q) ∧
      t.kv.dlv = u.kv.dlv ∧ t.kv.cursors = u.kv.cursors := by
  have key : ∀ l, Replaced a seq l u t → ∀ i q, ¬ (i = a.subId ∧ q = seq) →
      t.leases.get i q = u.leases.get i q := by
    intro l hr i q hk
    rw [hr.leases, if_neg hk]
  cases v with
  | skip => exact h.elim
  | filtered => exact h.elim
  | refuse e' =>
    rw [h.2]
    exact ⟨fun _ _ _ => rfl, rfl, rfl⟩
  | lease n =>
    rw [h.2.1]
    exact ⟨key _ h.2.2.1, rfl, rfl⟩
  | forward dlq n =>
    rcases h with ⟨_, ht⟩ | ⟨_, _, ht⟩ | ⟨_, _, _, hkv, hr, _⟩
    · rw [ht]
      exact ⟨fun _ _ _ => rfl, rfl, rfl⟩
    · rw [ht]
      exact ⟨fun _ _ _ => rfl, rfl, rfl⟩
    · rw [hkv]
      exact ⟨key _ hr, rfl, rfl⟩

/-- A message that the dead-letter topic does not take leaves nothing behind. -/
theorem Broke.untouched (h : Broke a seq m u t e v) (hun : v.Untaken u.kv) :
    Untouched a.subId u t := by
  cases v with
  | skip => exact h.elim
  | filtered => exact h.elim
  | lease n => exact hun.elim
  | refuse e' =>
    rw [h.2]
    exact ⟨fun _ _ => rfl, fun _ => rfl, rfl, rfl⟩
  | forward dlq n =>
    rcases h with ⟨_, ht⟩ | ⟨_, _, ht⟩ | ⟨h0, h1, _⟩
    · rw [ht]
      exact ⟨fun _ _ => rfl, fun _ => rfl, rfl, rfl⟩
    · rw [ht]
      exact ⟨fun _ _ => rfl, fun _ => rfl, rfl, rfl⟩
    · simp [Verdict.Untaken, h0, h1] at hun

end Broken

theorem Untouched.trans {i : Nat} (h : Untouched i s u) (h' : Untouched i u t) :
    Untouched i s t where
  leases j q := (h'.leases j q).trans (h.leases j q)
  dlv q := (h'.dlv q).trans (h.dlv q)
  cursor := h'.cursor.trans h.cursor
  log := h'.log.trans h.log

theorem LeaseExact.goesThrough {out : List Delivered} (h : LeaseExact a s c out t) :
    GoesThrough a s c := by
  obtain ⟨u, sc, hscan, _, hsave, _⟩ := h
  obtain ⟨hok, hwrites, _⟩ := hscan.kv_kept
  refine ⟨noneUndeliverable_iff.mpr hscan.taken, fun k hk => ?_⟩
  by_cases hlt : k < totalCost (planned a s c)
  · exact hscan.ok k hlt
  · have hfin : ((planned a s c).any fun v => v.verdict.finishes) = true := by
      by_contra hno
      rw [writesOf, if_neg hno] at hk
      omega
    rw [writesOf, if_pos hfin] at hk
    have hlast := hsave (by rw [hscan.changed, hfin]; rfl)
    rw [hok, hwrites] at hlast
    have hk' : k = totalCost (planned a s c) := by omega
    rw [hk']
    exact hlast

theorem LeaseBroke.not_goesThrough {e : Error} (h : LeaseBroke a s c e t) :
    ¬ GoesThrough a s c := by
  rintro ⟨hnone, hwrite⟩
  rw [noneUndeliverable_iff] at hnone
  rcases h with ⟨pre, v, post, u, sc, hvs, hscan, hbroke⟩ | ⟨u, sc, hscan, hch, hbad, _⟩
  · obtain ⟨hok, hwrites, _⟩ := hscan.kv_kept
    rcases hbroke.fails with ⟨e', he'⟩ | ⟨k, hk, hbad⟩
    · exact hnone v (by rw [hvs]; simp) e' he'
    · have hlt : totalCost pre + k < writesOf (planned a s c) := by
        rw [writesOf, hvs, totalCost_append, totalCost_cons]
        omega
      have hgood := hwrite _ hlt
      rw [hok, hwrites, Nat.add_assoc, hgood] at hbad
      cases hbad
  · obtain ⟨hok, hwrites, _⟩ := hscan.kv_kept
    have hfin := hscan.changed
    rw [hch, Bool.false_or] at hfin
    have hgood := hwrite (totalCost (planned a s c)) (by rw [writesOf, if_pos hfin.symm]; omega)
    rw [hok, hwrites, hgood] at hbad
    cases hbad

/-- What a scan went through holds no ready message, when the first of them all is one that
the dead-letter topic does not take. -/
theorem ScanExact.idle {pre post : List Judged} (h : ScanExact a pre s sc u sc')
    (hfirst : ∀ v, (pre ++ post).find? (fun v => v.verdict.acts) = some v → v.verdict.Untaken s.kv) :
    ∀ x ∈ pre, x.verdict.acts = false := by
  intro x hx
  by_contra hacts
  have hsome : (pre.find? fun v => v.verdict.acts).isSome := by
    rw [List.find?_isSome]
    exact ⟨x, hx, by simpa using hacts⟩
  obtain ⟨y, hy⟩ := Option.isSome_iff_exists.mp hsome
  have hun := hfirst y (by rw [List.find?_append, hy]; rfl)
  exact h.not_untaken (List.mem_of_find?_eq_some hy) hun

/-- A call that fails at its first ready message, which the dead-letter topic does not
take, leaves nothing behind. -/
theorem LeaseBroke.untouched {e : Error} (h : LeaseBroke a s c e t)
    (hfirst : ∀ v, (planned a s c).find? (fun v => v.verdict.acts) = some v →
      v.verdict.Untaken s.kv) : Untouched a.subId s t := by
  rcases h with ⟨pre, v, post, u, sc, hvs, hscan, hbroke⟩ | ⟨u, sc, hscan, _, _, rfl⟩
  · rw [hvs] at hfirst
    have hidle := hscan.idle hfirst
    obtain ⟨dlv, hkv⟩ := hscan.kv_idle hidle
    have hnone : (pre.find? fun v => v.verdict.acts) = none := by
      rw [List.find?_eq_none]
      intro x hx
      rw [hidle x hx]
      exact Bool.false_ne_true
    have hun : v.verdict.Untaken s.kv := by
      refine hfirst v ?_
      rw [List.find?_append, hnone, Option.none_or, List.find?_cons, hbroke.acts]
    have hun' : v.verdict.Untaken u.kv := by
      rw [hkv]
      exact hun
    exact (hscan.untouched hidle).trans (hbroke.untouched hun')
  · have hidle := @ScanExact.idle _ _ _ _ _ _ [] hscan (by rwa [List.append_nil])
    have hkept := hscan.untouched hidle
    exact ⟨hkept.leases, hkept.dlv, hkept.cursor, hkept.log⟩

theorem Broke.touched {e : Error} {x : Judged} (hs : Countable a.subId s) (hx : x ∈ planned a s c)
    (hbroke : Broke a x.seq x.message u t e x.verdict)
    {dlv : SortedMap RowKey DeliveryRecord} (hkv : u.kv = { s.kv with dlv := dlv })
    (htaken : ¬ x.verdict.Untaken s.kv) : ¬ Untouched a.subId s t := by
  intro hun
  cases hverdict : x.verdict with
  | skip =>
    rw [hverdict] at hbroke
    exact hbroke
  | filtered =>
    rw [hverdict] at hbroke
    exact hbroke
  | refuse e' =>
    rw [hverdict] at htaken
    exact htaken trivial
  | lease n =>
    rw [hverdict] at hbroke
    have hnew := hbroke.2.2.1.leases a.subId x.seq
    rw [if_pos ⟨rfl, rfl⟩, hun.leases] at hnew
    exact newLease_ne hs hx hverdict hnew.symm
  | forward dlq n =>
    rw [hverdict] at hbroke htaken
    simp only [Verdict.Untaken, not_or, Bool.not_eq_false] at htaken
    rcases hbroke with ⟨h0, _⟩ | ⟨_, h1, _⟩ | ⟨_, _, _, hcopied, _⟩
    · rw [hkv] at h0
      exact Bool.noConfusion (htaken.1.symm.trans h0)
    · rw [hkv] at h1
      exact Bool.noConfusion (htaken.2.symm.trans h1)
    · -- the copy stands in the log of the dead-letter topic
      have htail : TopicStore.currentTail u.kv dlq.id = TopicStore.currentTail s.kv dlq.id := by
        rw [hkv]
        rfl
      have hrow : t.kv.msg.get ⟨dlq.id, TopicStore.currentTail s.kv dlq.id + 1⟩ =
          some (copyRow u.kv a x.message dlq n) := by
        rw [hcopied, ← htail]
        exact SortedMap.get_insert_self ..
      rw [hun.log, hs.tail _ _ (Nat.lt_succ_self _)] at hrow
      cases hrow

/-- A call that fails after it has treated a ready message leaves this behind. -/
theorem LeaseBroke.touched {e : Error} (hs : Countable a.subId s) (h : LeaseBroke a s c e t)
    {v : Judged} (hv : (planned a s c).find? (fun v => v.verdict.acts) = some v)
    (htaken : ¬ v.verdict.Untaken s.kv) : ¬ Untouched a.subId s t := by
  intro hun
  have hmem := List.mem_of_find?_eq_some hv
  have hacts : v.verdict.acts = true := by simpa using List.find?_some hv
  have hnot : ∀ e', v.verdict ≠ .refuse e' := by
    intro e' he'
    rw [he'] at htaken
    exact htaken trivial
  have hchanged := changed_of_acts hs hmem hacts hnot
  have hpast : ∀ vs u sc, ScanExact a vs s ⟨c, false, []⟩ u sc → v ∈ vs →
      t.leases.get a.subId v.seq = u.leases.get a.subId v.seq →
      t.kv.dlv.get ⟨a.subId, v.seq⟩ = u.kv.dlv.get ⟨a.subId, v.seq⟩ → False := by
    intro vs u sc hscan hin hl hr
    obtain ⟨hvl, hvr⟩ := hscan.visited v hin
    rcases hchanged with hne | hne
    · exact hne (by rw [← hvl, ← hl, hun.leases])
    · exact hne (by rw [← hvr, ← hr, hun.dlv])
  rcases h with ⟨pre, x, post, u, sc, hvs, hscan, hbroke⟩ | ⟨u, sc, hscan, _, _, rfl⟩
  · obtain ⟨hothers, hdlv, _⟩ := hbroke.others
    by_cases hin : v ∈ pre
    · have hascending := planned_ascending (a := a) (s := s) (c := c)
      rw [hvs, List.pairwise_append] at hascending
      have hlt := hascending.2.2 v hin x List.mem_cons_self
      exact hpast pre u sc hscan hin (hothers _ _ fun hk => by omega) (by rw [hdlv])
    · -- the call breaks off at the message itself
      rw [hvs, List.find?_append] at hv
      have hnone : (pre.find? fun v => v.verdict.acts) = none := by
        cases hy : pre.find? fun v => v.verdict.acts with
        | none => rfl
        | some y =>
          rw [hy, Option.some_or, Option.some.injEq] at hv
          exact absurd (List.mem_of_find?_eq_some (hy.trans (by rw [hv]))) hin
      rw [hnone, Option.none_or, List.find?_cons, hbroke.acts, Option.some.injEq] at hv
      subst hv
      have hidle : ∀ y ∈ pre, y.verdict.acts = false := by
        intro y hy
        simpa using List.find?_eq_none.mp hnone y hy
      obtain ⟨dlv, hkv⟩ := hscan.kv_idle hidle
      exact hbroke.touched hs hmem hkv htaken hun
  · exact hpast _ u sc hscan hmem rfl rfl

section Claim

variable (s : Engine) (subId topicId : Nat) (maxMessages nowMs secs : Int)

/-- A call that fails leaves nothing behind. -/
def AllOrNothing : Prop :=
  ∀ e t, leaseNext subId topicId maxMessages nowMs secs s = .error e t → Untouched subId s t

/-- The call leases nothing anyhow, or goes through, or fails first. -/
def FailsClean : Prop :=
  0 < maxMessages → ∀ c, s.kv.cursors.get subId = some c →
    FailsFirst (leaseArgs s subId topicId maxMessages nowMs secs) s c

/-- A call that fails leaves nothing behind exactly when it fails at the first ready
message that it reaches, and this because the dead-letter topic does not take it. -/
theorem lease_next_all_or_nothing :
    (FailsClean s subId topicId maxMessages nowMs secs →
      AllOrNothing s subId topicId maxMessages nowMs secs) ∧
    (Countable subId s → AllOrNothing s subId topicId maxMessages nowMs secs →
      FailsClean s subId topicId maxMessages nowMs secs) := by
  refine ⟨fun hclean e t hr => ?_, fun hs hall hmax c hc => ?_⟩
  · by_cases hmax : 0 < maxMessages
    · cases hc : s.kv.cursors.get subId with
      | none =>
        obtain ⟨e', he'⟩ := leaseNext_no_cursor topicId nowMs secs hmax hc
        rw [hr] at he'
        cases he'
        exact ⟨fun _ _ => rfl, fun _ => rfl, rfl, rfl⟩
      | some c =>
        have hbroke := (ensures_leaseNext_exact topicId nowMs secs hmax hc).of_error hr
        rcases hclean hmax c hc with hgoes | hfirst
        · exact absurd hgoes hbroke.not_goesThrough
        · have hun := hbroke.untouched hfirst
          exact ⟨hun.leases, hun.dlv, hun.cursor, hun.log⟩
    · rw [leaseNext, if_pos (not_lt.mp hmax)] at hr
      cases hr
  · have hexact := ensures_leaseNext_exact topicId nowMs secs hmax hc
    cases hr : leaseNext subId topicId maxMessages nowMs secs s with
    | ok out t => exact Or.inl (hexact.of_ok hr).goesThrough
    | error e t =>
      right
      intro v hv
      by_contra htaken
      have hs' : Countable subId (s.cacheFilter subId) := ⟨hs.attempts, hs.tail⟩
      have hun := hall e t hr
      exact (hexact.of_error hr).touched hs' hv htaken ⟨hun.leases, hun.dlv, hun.cursor, hun.log⟩

end Claim

/-- The first ready message that the call reaches is refused. -/
def refusedFirst (s : Engine) (subId topicId : Nat) (maxMessages nowMs secs : Int) : Bool :=
  match s.kv.cursors.get subId with
  | none => false
  | some c =>
    match (planned (leaseArgs s subId topicId maxMessages nowMs secs) s c).find?
      (fun v => v.verdict.acts) with
    | some ⟨_, _, .refuse _⟩ => true
    | _ => false

theorem FailsClean.of_refusedFirst {s : Engine} {subId topicId : Nat}
    {maxMessages nowMs secs : Int} (h : refusedFirst s subId topicId maxMessages nowMs secs = true) :
    FailsClean s subId topicId maxMessages nowMs secs := by
  intro _ c hc
  right
  intro v hv
  obtain ⟨seq, m, verdict⟩ := v
  simp only [refusedFirst, hc, hv] at h
  cases verdict with
  | refuse e => trivial
  | _ => cases h

/-- The call that is wedged leaves nothing behind. -/
theorem lease_next_all_or_nothing_wedged : ∃ e t,
    leaseNext 2 1 1 100000 10 (Run.final step start wedgedRun) = .error e t ∧
      Untouched 2 (Run.final step start wedgedRun) t := by
  have hbad : returns (leaseNext 2 1 1 100000 10 (Run.final step start wedgedRun)) = false := by
    decide +kernel
  have hfirst : refusedFirst (Run.final step start wedgedRun) 2 1 1 100000 10 = true := by
    decide +kernel
  cases hr : leaseNext 2 1 1 100000 10 (Run.final step start wedgedRun) with
  | ok out t =>
    rw [hr] at hbad
    cases hbad
  | error e t =>
    have hclean := FailsClean.of_refusedFirst hfirst
    exact ⟨e, t, rfl, (lease_next_all_or_nothing _ 2 1 1 100000 10).1 hclean e t hr⟩

/-- A store that takes no write any more, with one message to lease. -/
def deadStore : Engine :=
  let s := Run.final step start (setup {})
  { s with kv := { s.kv with ok := fun _ => false } }

def leaseAfterError (r : EStateM.Result Error Engine (List Delivered)) (subId seq : Nat) :
    Option Lease :=
  match r with
  | .ok _ _ => none
  | .error _ t => t.leases.get subId seq

/-- The message is leased to a caller that gets an error for it. -/
theorem lease_next_leaves_lease : ¬ ∀ (s : Engine) (subId topicId : Nat)
    (maxMessages nowMs secs : Int), AllOrNothing s subId topicId maxMessages nowMs secs := by
  intro h
  have hafter : (leaseAfterError (leaseNext 2 1 1 5 10 deadStore) 2 1).isSome = true := by
    decide +kernel
  have hbefore : deadStore.leases.get 2 1 = none := by decide +kernel
  cases hr : leaseNext 2 1 1 5 10 deadStore with
  | ok out t =>
    rw [hr] at hafter
    cases hafter
  | error e t =>
    rw [hr] at hafter
    simp only [leaseAfterError, (h deadStore 2 1 1 5 10 e t hr).leases, hbefore] at hafter
    cases hafter

end Atomicity

end OpenPubusb
