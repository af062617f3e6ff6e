import OpenPubusb.FilterCache
import OpenPubusb.LeaseFailures
import OpenPubusb.PolicyFields

/-! The two ways in which `lease_next` finds a lapsed lease, in memory or in its row.
It does not matter which one it takes. -/

namespace OpenPubusb

open Hoare

/-- Both calls return the same and leave the same store, or both fail and leave the same
store. -/
def SameOutcome {α : Type} : EStateM.Result Error Engine α → EStateM.Result Error Engine α → Prop
  | .ok a t, .ok b u => a = b ∧ t.kv = u.kv
  | .error _ t, .error _ u => t.kv = u.kv
  | _, _ => False

section Scan

variable {a : LeaseArgs} {seq : Nat} {m : MessageRecord} {s s' t t' : Engine} {sc sc₁ sc₁' : Scan}
  {v : Verdict} {e e' : Error}

theorem Decided.same (hkv : s.kv = s'.kv) (h : Decided a seq m s sc t sc₁ v)
    (h' : Decided a seq m s' sc t' sc₁' v) : sc₁ = sc₁' ∧ t.kv = t'.kv := by
  cases v with
  | skip =>
    rw [h.1, h.2, h'.1, h'.2]
    exact ⟨rfl, hkv⟩
  | filtered =>
    rw [h.1, h.2, h'.1, h'.2]
    exact ⟨rfl, hkv⟩
  | lease n =>
    rw [h.2.2.2.2, h'.2.2.2.2, h.2.1, h'.2.1, hkv]
    exact ⟨rfl, rfl⟩
  | forward dlq n =>
    rw [h.2.2.2.2, h'.2.2.2.2, h.2.1, h'.2.1, hkv]
    exact ⟨rfl, rfl⟩
  | refuse e => exact h.elim

theorem Decided.not_broke (hkv : s.kv = s'.kv) (h : Decided a seq m s sc t sc₁ v)
    (h' : Broke a seq m s' t' e v) : False := by
  rcases h'.fails with ⟨e', he'⟩ | ⟨k, hk, hbad⟩
  · rw [he'] at h
    exact h
  · rw [← hkv, h.ok k hk] at hbad
    cases hbad

theorem Broke.same (hkv : s.kv = s'.kv) (h : Broke a seq m s t e v)
    (h' : Broke a seq m s' t' e' v) : t.kv = t'.kv := by
  cases v with
  | skip => exact h.elim
  | filtered => exact h.elim
  | refuse _ =>
    rw [h.2, h'.2]
    exact hkv
  | lease n => rw [h.2.1, h'.2.1, hkv]
  | forward dlq n =>
    simp only [Broke, ← hkv] at h'
    rcases h with ⟨h0, ht⟩ | ⟨h0, h1, ht⟩ | ⟨h0, h1, _, ht, _⟩
    · rcases h' with ⟨h0', ht'⟩ | ⟨h0', _⟩ | ⟨h0', _⟩
      · rw [ht, ht']
      · cases h0.symm.trans h0'
      · cases h0.symm.trans h0'
    · rcases h' with ⟨h0', _⟩ | ⟨_, _, ht'⟩ | ⟨_, h1', _⟩
      · cases h0.symm.trans h0'
      · rw [ht, ht']
      · cases h1.symm.trans h1'
    · rcases h' with ⟨h0', _⟩ | ⟨_, h1', _⟩ | ⟨_, _, _, ht', _⟩
      · cases h0.symm.trans h0'
      · cases h1.symm.trans h1'
      · rw [ht, ht']

theorem leaseScan_same (rows : List (Nat × MessageRecord)) (hkv : s.kv = s'.kv)
    (hsorted : (rows.map Prod.fst).Pairwise (· < ·))
    (hjudge : ∀ row ∈ rows, judge a s sc.cursor row.1 row.2 = judge a s' sc.cursor row.1 row.2) :
    SameOutcome (leaseScan a sc rows s) (leaseScan a sc rows s') := by
  induction rows generalizing s s' sc with
  | nil => exact ⟨rfl, hkv⟩
  | cons row rows ih =>
    obtain ⟨seq, m⟩ := row
    obtain ⟨hlt, hsorted⟩ := List.pairwise_cons.mp hsorted
    have hone := @ensures_leaseOne_decided a seq m s sc
    have hone' := @ensures_leaseOne_decided a seq m s' sc
    rw [← hjudge (seq, m) List.mem_cons_self] at hone'
    by_cases hmax : a.maxMessages ≤ sc.out.length
    · simp only [leaseScan, if_pos hmax]
      exact ⟨rfl, hkv⟩
    · simp only [leaseScan, if_neg hmax]
      change SameOutcome (EStateM.bind _ _ s) (EStateM.bind _ _ s')
      unfold EStateM.bind
      cases hr : leaseOne a sc seq m s with
      | ok sc₁ u =>
        have hu := hone.of_ok hr
        cases hr' : leaseOne a sc seq m s' with
        | ok sc₁' u' =>
          have hu' := hone'.of_ok hr'
          obtain ⟨rfl, hkv'⟩ := hu.same hkv hu'
          refine ih hkv' hsorted fun row hrow => ?_
          have hne := hlt row.1 (List.mem_map_of_mem hrow)
          rw [hu.judge_eq (by omega), hu'.judge_eq (by omega)]
          exact hjudge row (List.mem_cons_of_mem _ hrow)
        | error e' u' => exact (hu.not_broke hkv (hone'.of_error hr')).elim
      | error e u =>
        have hu := hone.of_error hr
        cases hr' : leaseOne a sc seq m s' with
        | ok sc₁' u' => exact ((hone'.of_ok hr').not_broke hkv.symm hu).elim
        | error e' u' => exact hu.same hkv (hone'.of_error hr')

end Scan

section Call

variable {α β : Type} {s s' : Engine} {subId topicId : Nat} {nowMs laterMs : Int}

theorem SameOutcome.bind {m m' : EngineM α} {f f' : α → EngineM β}
    (hm : SameOutcome (m s) (m' s'))
    (hf : ∀ x t t', t.kv = t'.kv → SameOutcome (f x t) (f' x t')) :
    SameOutcome ((m >>= f) s) ((m' >>= f') s') := by
  change SameOutcome (EStateM.bind m f s) (EStateM.bind m' f' s')
  unfold EStateM.bind
  cases hr : m s with
  | ok x t =>
    cases hr' : m' s' with
    | ok x' t' =>
      rw [hr, hr'] at hm
      rw [← hm.1]
      exact hf x t t' hm.2
    | error e t' =>
      rw [hr, hr'] at hm
      exact hm.elim
  | error e t =>
    cases hr' : m' s' with
    | ok x t' =>
      rw [hr, hr'] at hm
      exact hm.elim
    | error e' t' =>
      rw [hr, hr'] at hm
      exact hm

theorem onKv_same (m : KvM α) (hkv : s.kv = s'.kv) : SameOutcome (onKv m s) (onKv m s') := by
  unfold onKv focus
  rw [hkv]
  cases m s'.kv with
  | ok x kv => exact ⟨rfl, rfl⟩
  | error e kv => exact rfl

theorem saveChanged_same (c : CursorRecord × Bool) (hkv : s.kv = s'.kv) :
    SameOutcome (saveChanged subId c s) (saveChanged subId c s') := by
  unfold saveChanged
  split_ifs
  · exact onKv_same _ hkv
  · exact ⟨rfl, hkv⟩

/-- The lease and the row of the seq tell the same, and a row alone has lapsed. -/
def Engine.InStepAt (s : Engine) (subId : Nat) (nowMs : Int) (q : Nat) : Prop :=
  match s.leases.get subId q with
  | some l => s.kv.dlv.get ⟨subId, q⟩ = some l.record
  | none => ∀ r, s.kv.dlv.get ⟨subId, q⟩ = some r → r.deadlineMs ≤ nowMs

theorem Engine.InStepAt.later {q : Nat} (h : s.InStepAt subId nowMs q) (hle : nowMs ≤ laterMs) :
    s.InStepAt subId laterMs q := by
  unfold Engine.InStepAt at h ⊢
  cases hl : s.leases.get subId q with
  | some l =>
    rw [hl] at h
    exact h
  | none =>
    rw [hl] at h
    exact fun r hr => (h r hr).trans hle

theorem Engine.InStepAt.lastDelivery_eq {q : Nat} (h : s.InStepAt subId nowMs q) :
    s.lastDelivery subId q = s.kv.dlv.get ⟨subId, q⟩ := by
  unfold Engine.InStepAt at h
  unfold Engine.lastDelivery
  cases hl : s.leases.get subId q with
  | some l =>
    rw [hl] at h
    exact h.symm
  | none => rfl

theorem Engine.InStepAt.heldAt_eq {q : Nat} (h : s.InStepAt subId nowMs q) :
    s.heldAt nowMs subId q = (s.kv.dlv.get ⟨subId, q⟩).any fun r => nowMs < r.deadlineMs := by
  unfold Engine.InStepAt at h
  unfold Engine.heldAt
  cases hl : s.leases.get subId q with
  | some l =>
    rw [hl] at h
    rw [h]
    rfl
  | none =>
    rw [hl] at h
    cases hr : s.kv.dlv.get ⟨subId, q⟩ with
    | none => rfl
    | some r =>
      have hdue := h r hr
      simp [hdue]

theorem judge_same {a : LeaseArgs} {q : Nat} (hkv : s.kv = s'.kv)
    (h : s.InStepAt a.subId a.nowMs q) (h' : s'.InStepAt a.subId a.nowMs q) (c : CursorRecord)
    (m : MessageRecord) : judge a s c q m = judge a s' c q m := by
  have hlast : s.lastDelivery a.subId q = s'.lastDelivery a.subId q := by
    rw [h.lastDelivery_eq, h'.lastDelivery_eq, hkv]
  have hheld : s.heldAt a.nowMs a.subId q = s'.heldAt a.nowMs a.subId q := by
    rw [h.heldAt_eq, h'.heldAt_eq, hkv]
  simp only [judge, Engine.priorAttempts, hlast, hheld, hkv]

theorem loadCursor_eq {c : CursorRecord} (hc : s.kv.cursors.get subId = some c) :
    loadCursor subId s = .ok c s := by
  apply Ensures.run_eq
  simp only [loadCursor, ensures_bind, ensures_get, hc, ensures_pure]

theorem compiledFilter_eq (s : Engine) (subId : Nat) :
    compiledFilter subId s = .ok (s.filterOf subId) (s.cacheFilter subId) := by
  have h := (@ensures_compiledFilter_eq s subId
    (fun f t => f = s.filterOf subId ∧ t = s.cacheFilter subId) (fun _ _ => False)).mpr ⟨rfl, rfl⟩
  cases hr : compiledFilter subId s with
  | ok f t =>
    obtain ⟨rfl, rfl⟩ := h.of_ok hr
    rfl
  | error e t => exact (h.of_error hr).elim

theorem leaseNext_eq (topicId : Nat) {maxMessages : Int} (nowMs secs : Int) {c : CursorRecord}
    (hmax : 0 < maxMessages) (hc : s.kv.cursors.get subId = some c) :
    leaseNext subId topicId maxMessages nowMs secs s =
      leaseNextLocked (leaseArgs s subId topicId maxMessages nowMs secs) c
        (s.cacheFilter subId) := by
  unfold leaseNext
  rw [if_neg (not_le.mpr hmax)]
  change EStateM.bind _ _ s = _
  rw [EStateM.bind, loadCursor_eq hc]
  change EStateM.bind _ _ s = _
  rw [EStateM.bind, compiledFilter_eq]
  rfl

/-- Each message of the log of the topic is in step. -/
def Engine.InStepLogged (s : Engine) (subId topicId : Nat) (nowMs : Int) : Prop :=
  ∀ q m, s.kv.msg.get ⟨topicId, q⟩ = some m → s.InStepAt subId nowMs q

theorem leaseNextLocked_same {a : LeaseArgs} (c : CursorRecord) (hkv : s.kv = s'.kv)
    (h : s.InStepLogged a.subId a.topicId a.nowMs) (h' : s'.InStepLogged a.subId a.topicId a.nowMs) :
    SameOutcome (leaseNextLocked a c s) (leaseNextLocked a c s') := by
  have hscan : SameOutcome (leaseScan a ⟨c, false, []⟩ (scanPrefix s.kv.msg a.topicId) s)
      (leaseScan a ⟨c, false, []⟩ (scanPrefix s'.kv.msg a.topicId) s') := by
    rw [← hkv]
    refine leaseScan_same _ hkv (scanPrefix_increasing _ _) fun row hrow => ?_
    have hrow := mem_scanPrefix.mp hrow
    exact judge_same hkv (h _ _ hrow) (h' _ _ (hkv ▸ hrow)) c row.2
  change SameOutcome ((leaseScan a ⟨c, false, []⟩ (scanPrefix s.kv.msg a.topicId) >>= _) s)
    ((leaseScan a ⟨c, false, []⟩ (scanPrefix s'.kv.msg a.topicId) >>= _) s')
  refine hscan.bind fun sc t t' hkv' => ?_
  exact (saveChanged_same _ hkv').bind fun _ _ _ hkv' => ⟨rfl, hkv'⟩

theorem leaseNext_same (hkv : s.kv = s'.kv) (h : s.InStepLogged subId topicId nowMs)
    (h' : s'.InStepLogged subId topicId nowMs)
    (hf : (s.kv.cursors.get subId).isSome → s.filterOf subId = s'.filterOf subId)
    (maxMessages secs : Int) :
    SameOutcome (leaseNext subId topicId maxMessages nowMs secs s)
      (leaseNext subId topicId maxMessages nowMs secs s') := by
  by_cases hmax : maxMessages ≤ 0
  · unfold leaseNext
    rw [if_pos hmax]
    exact ⟨rfl, hkv⟩
  cases hc : s.kv.cursors.get subId with
  | none =>
    have hpos : 0 < maxMessages := by omega
    obtain ⟨e, he⟩ := leaseNext_no_cursor topicId nowMs secs hpos hc
    obtain ⟨e', he'⟩ := leaseNext_no_cursor topicId nowMs secs hpos (hkv ▸ hc)
    rw [he, he']
    exact hkv
  | some c =>
    have hpos : 0 < maxMessages := by omega
    rw [leaseNext_eq topicId nowMs secs hpos hc, leaseNext_eq topicId nowMs secs hpos (hkv ▸ hc)]
    have hargs : leaseArgs s subId topicId maxMessages nowMs secs =
        leaseArgs s' subId topicId maxMessages nowMs secs := by
      rw [leaseArgs, leaseArgs, hf (by rw [hc]; rfl)]
    rw [← hargs]
    exact leaseNextLocked_same c hkv h h'

end Call

section Upkeep

variable {s t : Engine} {subId topicId : Nat} {nowMs laterMs graceMs : Int}

/-- What every reachable state has: an index that fits the lease table, and no cached
filter of a subscription but the stored one. -/
structure Engine.Sound (s : Engine) : Prop where
  coherent : s.leases.Coherent
  cached : ∀ {id f}, s.filters.get id = some f → (s.kv.cursors.get id).isSome →
    f = storedFilter s.kv id

theorem Engine.Sound.filterOf (h : s.Sound) (hc : (s.kv.cursors.get subId).isSome) :
    s.filterOf subId = storedFilter s.kv subId := by
  unfold Engine.filterOf
  cases hf : s.filters.get subId with
  | some f => exact h.cached hf hc
  | none => rfl

theorem Engine.Sound.withOk (h : s.Sound) (ok : Nat → Bool) :
    Engine.Sound { s with kv := { s.kv with ok := ok } } :=
  ⟨h.coherent, h.cached⟩

/-- Each message that the log has or will have is in step. -/
def Engine.InStep (s : Engine) (subId topicId : Nat) (nowMs : Int) : Prop :=
  ∀ q, s.kv.present topicId q = true → s.InStepAt subId nowMs q

theorem Engine.InStep.logged (h : s.InStep subId topicId nowMs) :
    s.InStepLogged subId topicId nowMs := by
  intro q m hm
  exact h q (by rw [Kv.present, hm]; simp)

theorem inStepAt_of_eq {q : Nat} (hl : t.leases.get subId q = s.leases.get subId q)
    (hr : t.kv.dlv.get ⟨subId, q⟩ = s.kv.dlv.get ⟨subId, q⟩) (h : s.InStepAt subId nowMs q) :
    t.InStepAt subId nowMs q := by
  unfold Engine.InStepAt at h ⊢
  rw [hl, hr]
  exact h

theorem inStepAt_of_none {q : Nat} (hl : t.leases.get subId q = none)
    (hr : t.kv.dlv.get ⟨subId, q⟩ = none) : t.InStepAt subId nowMs q := by
  unfold Engine.InStepAt
  rw [hl, hr]
  exact nofun

theorem inStepAt_of_some {q : Nat} {l : Lease} (hl : t.leases.get subId q = some l)
    (hr : t.kv.dlv.get ⟨subId, q⟩ = some l.record) : t.InStepAt subId nowMs q := by
  unfold Engine.InStepAt
  rw [hl]
  exact hr

theorem inStepAt_sweep (hc : s.leases.Coherent) (hlater : i64Min ≤ laterMs) (hgrace : 0 ≤ graceMs)
    (hle : nowMs ≤ laterMs) {q : Nat} (h : s.InStepAt subId nowMs q) :
    Engine.InStepAt { s with leases := sweepLeases s.leases subId laterMs graceMs } subId laterMs
      q := by
  have hlimit := satSubI64_le hlater hgrace
  have hget := get_sweepLeases hc subId laterMs graceMs subId q
  unfold Engine.InStepAt at h ⊢
  rw [hget]
  cases hl : s.leases.get subId q with
  | none =>
    rw [hl] at h
    exact fun r hr => (h r hr).trans hle
  | some l =>
    rw [hl] at h
    by_cases hkeep : satSubI64 laterMs graceMs < l.deadlineMs
    · simp only [Option.bind_some, if_pos hkeep]
      exact h
    · simp only [Option.bind_some, if_neg hkeep, if_true]
      intro r hr
      rw [h] at hr
      cases hr
      have hdue : l.deadlineMs ≤ laterMs := by omega
      exact hdue

theorem inStepAt_boot (kv : Kv) (log : List DeadLettered) (subId : Nat) (nowMs : Int) (q : Nat) :
    (Engine.boot kv log).InStepAt subId nowMs q := by
  have hget := get_recoveredLeases kv.dlv subId q
  cases hr : kv.dlv.get ⟨subId, q⟩ with
  | none =>
    rw [hr] at hget
    exact inStepAt_of_none hget hr
  | some r =>
    rw [hr] at hget
    exact inStepAt_of_some hget hr

theorem present_appendRows (kv : Kv) (rows : List (Nat × MessageRecord)) (topicId q : Nat) :
    (appendRows kv rows).present topicId q = kv.present topicId q := by
  induction rows generalizing kv with
  | nil => rfl
  | cons row rows ih =>
    refine (ih (kv.appendRow row.1 row.2)).trans ?_
    exact (extended_stored kv row.1 kv.writes row.2).present_eq (filled_stored kv row.1 kv.writes row.2)
      topicId q

theorem ScanExact.present {a : LeaseArgs} {vs : List Judged} {sc sc' : Scan}
    (h : ScanExact a vs s sc t sc') (topicId q : Nat) :
    t.kv.present topicId q = s.kv.present topicId q := by
  obtain ⟨dlv, hkv⟩ := h.kv
  rw [hkv]
  exact present_appendRows s.kv _ topicId q

theorem ScanExact.inStep {a : LeaseArgs} {vs : List Judged} {sc sc' : Scan}
    (h : ScanExact a vs s sc t sc') (hin : s.InStep a.subId topicId nowMs) :
    t.InStep a.subId topicId nowMs := by
  intro q hq
  rw [h.present] at hq
  have hin := hin q hq
  by_cases hv : ∃ v ∈ vs, v.seq = q
  · obtain ⟨v, hv, rfl⟩ := hv
    obtain ⟨hl, hr⟩ := h.visited v hv
    cases hverdict : v.verdict with
    | lease n =>
      rw [hverdict] at hl hr
      exact inStepAt_of_some hl hr
    | forward dlq n =>
      rw [hverdict] at hl hr
      exact inStepAt_of_none hl hr
    | _ =>
      rw [hverdict] at hl hr
      exact inStepAt_of_eq hl hr hin
  · obtain ⟨hl, hr⟩ := h.others a.subId q fun _ v hv' he => hv ⟨v, hv', he⟩
    exact inStepAt_of_eq hl hr hin

theorem leaseNext_inStep (hh : s.kv.Healthy) (h : s.InStep subId topicId nowMs)
    (maxMessages laterMs secs : Int) :
    Ensures (leaseNext subId topicId maxMessages laterMs secs) s
      (fun _ t => t.InStep subId topicId nowMs) (fun _ t => t.InStep subId topicId nowMs) := by
  by_cases hmax : maxMessages ≤ 0
  · unfold leaseNext
    rw [if_pos hmax]
    exact h
  have hpos : 0 < maxMessages := by omega
  cases hc : s.kv.cursors.get subId with
  | none =>
    obtain ⟨e, he⟩ := leaseNext_no_cursor topicId laterMs secs hpos hc
    unfold Ensures
    rw [he]
    exact h
  | some c =>
    have hin : (s.cacheFilter subId).InStep subId topicId nowMs := h
    have hh' : (s.cacheFilter subId).kv.Healthy := hh
    refine (ensures_leaseNext_exact topicId laterMs secs hpos hc).mono (fun out t ht => ?_)
      (fun e t ht => ?_)
    · obtain ⟨u, sc, hscan, _, _, rfl⟩ := ht
      have hu := hscan.inStep hin
      unfold Engine.withCursor
      split_ifs
      · exact hu
      · exact hu
    · rcases ht with ⟨pre, v, post, u, sc, _, hscan, hbroke⟩ | ⟨u, sc, hscan, _, hbad, _⟩
      · rw [(hbroke.refused (hscan.healthy hh')).1]
        exact hscan.inStep hin
      · rw [hscan.healthy hh'] at hbad
        cases hbad

theorem acknowledge_inStep (hh : s.kv.Healthy) (hc : s.leases.Coherent)
    (h : s.InStep subId topicId nowMs) (ackIds : List String)
    (hown : ∀ ackId ∈ ackIds, ∀ i q, s.leases.Names ackId i q → i = subId) :
    Ensures (acknowledge subId ackIds) s (fun _ t => t.InStep subId topicId nowMs)
      (fun _ t => t.InStep subId topicId nowMs) := by
  refine (ensures_acknowledge ackIds hh hc).mono (fun _ t ht q hq => ?_) (fun _ t ht => ?_)
  · rw [ht.extended.present_eq ht.filled] at hq
    by_cases hhit : Hit s.leases ackIds subId q
    · exact inStepAt_of_none ((ht.leases subId q).1 hhit) ((ht.row q).1 ⟨subId, hhit⟩)
    · have hnone : ¬ ∃ j, Hit s.leases ackIds j q := by
        rintro ⟨j, ackId, hmem, hname⟩
        rw [hown ackId hmem j q hname] at hname
        exact hhit ⟨ackId, hmem, hname⟩
      exact inStepAt_of_eq ((ht.leases subId q).2 hhit) ((ht.row q).2 hnone) (h q hq)
  · rw [ht.1]
    exact h

theorem modifyAckDeadline_inStep (hh : s.kv.Healthy) (hc : s.leases.Coherent)
    (h : s.InStep subId topicId nowMs) (ackIds : List String) (laterMs secs : Int)
    (hown : ∀ ackId ∈ ackIds, ∀ i q, s.leases.Names ackId i q → i = subId) :
    Ensures (modifyAckDeadline subId ackIds laterMs secs) s
      (fun _ t => t.InStep subId topicId nowMs) (fun _ t => t.InStep subId topicId nowMs) := by
  refine (ensures_modifyAckDeadline ackIds laterMs secs hh hc hown _).mono (fun _ t ht q hq => ?_)
    (fun _ _ h => h)
  obtain ⟨dlv, w, hkv⟩ := ht.rest
  rw [hkv] at hq
  have hin := h q hq
  by_cases hhit : Hit s.leases ackIds subId q
  · have hl := (ht.leases subId q).1 ⟨rfl, hhit⟩
    have hr := (ht.dlv subId q).1 ⟨rfl, hhit⟩
    cases hold : s.leases.get subId q with
    | none =>
      rw [hold] at hl hr
      exact inStepAt_of_none hl hr
    | some l =>
      rw [hold] at hl hr
      exact inStepAt_of_some hl hr
  · have hno : ¬ (subId = subId ∧ Hit s.leases ackIds subId q) := fun hk => hhit hk.2
    exact inStepAt_of_eq ((ht.leases subId q).2 hno) ((ht.dlv subId q).2 hno) hin

end Upkeep

section Reachable

/-- The cached filters are those of the records that are there. -/
structure CacheStored (s : Engine) : Prop where
  consistent : Consistent s.kv
  healthy : s.kv.Healthy
  cached : ∀ {id f}, s.filters.get id = some f → id ≤ s.kv.counter ∧
    ((s.kv.subs.get id).isSome → f = storedFilter s.kv id)

theorem CacheStored.step {s : Engine} (h : CacheStored s) (i : Input) :
    CacheStored (OpenPubusb.step s i).2 := by
  have hev := (step_path i h.consistent h.healthy).evolves h.consistent
  refine ⟨hev.consistent, hev.healthy h.healthy, fun {id f} hf => ?_⟩
  have hknown : id ≤ s.kv.counter ∧ ((s.kv.subs.get id).isSome → f = storedFilter s.kv id) := by
    rcases step_cached s i id f hf with hold | ⟨rfl, hcur⟩
    · exact h.cached hold
    · rw [h.consistent.cursors] at hcur
      exact ⟨h.consistent.sub_known hcur, fun _ => rfl⟩
  refine ⟨hknown.1.trans hev.counter, fun hr' => ?_⟩
  obtain ⟨r', hr'⟩ := Option.isSome_iff_exists.mp hr'
  obtain ⟨r, hr, _, hfilter⟩ :=
    (step_record h.consistent h.healthy i hr').kept hknown.1
  rw [hknown.2 (by rw [hr]; rfl), storedFilter, storedFilter, hr, hr', Option.map_some,
    Option.map_some, hfilter]

theorem cacheStored_final (is : List Input) : CacheStored (Run.final step start is) := by
  have h0 : CacheStored start := ⟨consistent_empty, fun _ => rfl, fun h => by cases h⟩
  exact Run.inv_final (C := fun _ => True) (fun _ i h _ => h.step i) h0 fun _ _ => trivial

theorem sound_final (is : List Input) : (Run.final step start is).Sound := by
  have h := cacheStored_final is
  refine ⟨(wellFormed_final is).coherent, fun hf hc => (h.cached hf).2 ?_⟩
  rw [← h.consistent.cursors]
  exact hc

end Reachable

section Paths

variable {s : Engine} {subId topicId : Nat} {nowMs graceMs : Int}

/-- From the time `nowMs` on, a lease call does the same whether or not a sweep or a
restart came before it. -/
structure ReclaimsAlike (s : Engine) (subId topicId : Nat) (nowMs graceMs : Int) : Prop where
  sweep : ∀ maxMessages laterMs secs, nowMs ≤ laterMs →
    Ensures (sweepExpired subId nowMs graceMs) s
      (fun _ t => SameOutcome (leaseNext subId topicId maxMessages laterMs secs s)
        (leaseNext subId topicId maxMessages laterMs secs t)) (fun _ _ => False)
  recover : ∀ maxMessages laterMs secs, nowMs ≤ laterMs →
    SameOutcome (leaseNext subId topicId maxMessages laterMs secs s)
      (leaseNext subId topicId maxMessages laterMs secs (Engine.boot s.kv s.deadLettered))

/-- The calls on the subscription leave it in step. -/
structure StaysInStep (s : Engine) (subId topicId : Nat) (nowMs : Int) : Prop where
  leaseNext : ∀ maxMessages laterMs secs,
    Ensures (leaseNext subId topicId maxMessages laterMs secs) s
      (fun _ t => t.InStep subId topicId nowMs) (fun _ t => t.InStep subId topicId nowMs)
  acknowledge : ∀ ackIds : List String,
    (∀ ackId ∈ ackIds, ∀ i q, s.leases.Names ackId i q → i = subId) →
    Ensures (acknowledge subId ackIds) s
      (fun _ t => t.InStep subId topicId nowMs) (fun _ t => t.InStep subId topicId nowMs)
  modifyAckDeadline : ∀ (ackIds : List String) laterMs secs,
    (∀ ackId ∈ ackIds, ∀ i q, s.leases.Names ackId i q → i = subId) →
    Ensures (modifyAckDeadline subId ackIds laterMs secs) s
      (fun _ t => t.InStep subId topicId nowMs) (fun _ t => t.InStep subId topicId nowMs)
  sweep : ∀ laterMs graceMs, nowMs ≤ laterMs → 0 ≤ graceMs →
    Ensures (sweepExpired subId laterMs graceMs) s
      (fun _ t => t.InStep subId topicId laterMs) (fun _ _ => False)

/-- Where leases and rows tell the same, the two branches of the scan agree, and the
calls on the subscription keep it so. -/
theorem reclaim_paths_agree (hs : s.Sound) (hnow : i64Min ≤ nowMs) (hgrace : 0 ≤ graceMs) :
    (s.InStepLogged subId topicId nowMs → ReclaimsAlike s subId topicId nowMs graceMs) ∧
      (s.kv.Healthy → s.InStep subId topicId nowMs → StaysInStep s subId topicId nowMs) := by
  refine ⟨fun h => ⟨fun maxMessages laterMs secs hle => ?_, fun maxMessages laterMs secs hle => ?_⟩,
    fun hh h => ⟨leaseNext_inStep hh h, acknowledge_inStep hh hs.coherent h,
      modifyAckDeadline_inStep hh hs.coherent h, fun laterMs grace hle hg => ?_⟩⟩
  · simp only [sweepExpired, setLeases, ensures_bind, ensures_get, ensures_modify, ensures_pure]
    have hkv : s.kv = ({ s with
        leases := sweepLeases s.leases subId nowMs graceMs } : Engine).kv := rfl
    refine leaseNext_same hkv (fun q m hm => (h q m hm).later hle) (fun q m hm => ?_) (fun _ => rfl)
      maxMessages secs
    exact (inStepAt_sweep hs.coherent hnow hgrace le_rfl (h q m hm)).later hle
  · have hkv : s.kv = (Engine.boot s.kv s.deadLettered).kv := rfl
    exact leaseNext_same hkv (fun q m hm => (h q m hm).later hle)
      (fun q m hm => inStepAt_boot ..) hs.filterOf maxMessages secs
  · simp only [sweepExpired, setLeases, ensures_bind, ensures_get, ensures_modify, ensures_pure]
    exact fun q hq => inStepAt_sweep hs.coherent (hnow.trans hle) hg hle (h q hq)

/-- A restart after a pull: the lease of the pull is read back from its row. -/
theorem reclaim_paths_agree_restarted :
    let kv := (Run.final step start (setup {} ++ [pullA 0])).kv
    ReclaimsAlike (Engine.boot kv []) 2 1 0 0 ∧ StaysInStep (Engine.boot kv []) 2 1 0 := by
  intro kv
  have hsound : (Engine.boot kv []).Sound := ⟨coherent_recoveredLeases _, fun h => by cases h⟩
  have hstep : (Engine.boot kv []).InStep 2 1 0 := fun q _ => inStepAt_boot kv [] 2 0 q
  have hh : kv.Healthy := (consistent_final (setup {} ++ [pullA 0])).2
  have hagree := @reclaim_paths_agree (Engine.boot kv []) 2 1 0 0 hsound (by decide) le_rfl
  exact ⟨hagree.1 hstep.logged, hagree.2 hh hstep⟩

instance (s : Engine) (subId : Nat) (nowMs : Int) (q : Nat) :
    Decidable (s.InStepAt subId nowMs q) :=
  match h : s.leases.get subId q with
  | some l => decidable_of_iff (s.kv.dlv.get ⟨subId, q⟩ = some l.record) (by
      simp only [Engine.InStepAt, h])
  | none => decidable_of_iff ((s.kv.dlv.get ⟨subId, q⟩).all (fun r => r.deadlineMs ≤ nowMs) = true)
      (by simp [Engine.InStepAt, h, Option.all_eq_true])

instance (s : Engine) (subId topicId : Nat) (nowMs : Int) :
    Decidable (s.InStepLogged subId topicId nowMs) :=
  decidable_of_iff (∀ row ∈ scanPrefix s.kv.msg topicId, s.InStepAt subId nowMs row.1) (by
    simp only [Engine.InStepLogged, Prod.forall, mem_scanPrefix])

def ownTopicOptions : CreateSubscriptionOptions :=
  { deadLetterTopic := some "projects/p/topics/top1", maxDeliveryAttempts := some 5 }

/-- An id of a lease at seq `2` is sent to the subscription `2`, whose log has only
seq `1` then. Its message `1` is delivered until it is due for the dead-letter topic. -/
def strayRun : List Input :=
  setup ownTopicOptions ++
  [⟨0, .createTopic "projects/p/topics/top2" ∅ none none false false⟩,
   ⟨0, .createSubscription "projects/p/subscriptions/subC" "projects/p/topics/top2" {}⟩,
   ⟨0, .publish "projects/p/topics/top2" [⟨[1], ∅, ""⟩, ⟨[2], ∅, ""⟩]⟩,
   ⟨0, .pull "projects/p/subscriptions/subC" 2⟩,
   ⟨0, .modifyAckDeadline "projects/p/subscriptions/subA" [encodeAckId 5 2 1] 600⟩,
   pullA 0, pullA 20000, pullA 40000, pullA 60000, pullA 80000]

/-- The state that a call leaves, whether or not it fails. -/
def leftBy {α : Type} (r : EStateM.Result Error Engine α) : Engine :=
  match r with
  | .ok _ t => t
  | .error _ t => t

/-- The call leaves the messages of the log in step. -/
def LeaseKeepsLogged (s : Engine) (subId topicId : Nat) (maxMessages nowMs secs : Int) : Prop :=
  s.InStepLogged subId topicId nowMs →
    (leftBy (leaseNext subId topicId maxMessages nowMs secs s)).InStepLogged subId topicId nowMs

/-- The messages in the log alone do not stay in step: the row of a seq past the tail
waits for a message, and a write that fails leaves a lease without its row. -/
theorem lease_next_out_of_step :
    (¬ ∀ (is : List Input) (subId topicId : Nat) (maxMessages nowMs secs : Int),
      LeaseKeepsLogged (Run.final step start is) subId topicId maxMessages nowMs secs) ∧
    ¬ ∀ (s : Engine) (subId topicId : Nat) (maxMessages nowMs secs : Int), s.Sound →
      LeaseKeepsLogged s subId topicId maxMessages nowMs secs := by
  constructor
  · intro h
    have hbefore : (Run.final step start strayRun).InStepLogged 2 1 100000 := by decide +kernel
    have hafter : ¬ (leftBy (leaseNext 2 1 1 100000 10
        (Run.final step start strayRun))).InStepLogged 2 1 100000 := by
      decide +kernel
    have hkept := h strayRun
    generalize Run.final step start strayRun = s at hbefore hafter hkept
    exact hafter (hkept 2 1 1 100000 10 hbefore)
  · intro h
    have hsound : deadStore.Sound := (sound_final (setup {})).withOk _
    have hbefore : deadStore.InStepLogged 2 1 5 := by decide +kernel
    have hafter : ¬ (leftBy (leaseNext 2 1 1 5 10 deadStore)).InStepLogged 2 1 5 := by
      decide +kernel
    exact hafter (h deadStore 2 1 1 5 10 hsound hbefore)

end Paths

end OpenPubusb
