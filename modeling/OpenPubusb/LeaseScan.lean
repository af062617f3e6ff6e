import OpenPubusb.Budget
import OpenPubusb.LeaseVerdict

/-! The whole scan of `lease_next`. The decisions are those of the state before
the call, since the treatment of one message changes no decision about another. -/

namespace OpenPubusb

open Hoare

/-- A message of the log with the decision about it. -/
structure Judged where
  seq : Nat
  message : MessageRecord
  verdict : Verdict

def Verdict.leases : Verdict → Bool
  | .lease _ => true
  | _ => false

def Verdict.finishes : Verdict → Bool
  | .filtered => true
  | .forward _ _ => true
  | _ => false

def Verdict.cost : Verdict → Nat
  | .lease _ => 1
  | .forward _ _ => 3
  | _ => 0

def Verdict.leaseAfter (a : LeaseArgs) (seq : Nat) (old : Option Lease) : Verdict → Option Lease
  | .lease n => some (newLease a seq n)
  | .forward _ _ => none
  | _ => old

def Verdict.rowAfter (a : LeaseArgs) (seq : Nat) (old : Option DeliveryRecord) :
    Verdict → Option DeliveryRecord
  | .lease n => some (newLease a seq n).record
  | .forward _ _ => none
  | _ => old

def Judged.delivery (a : LeaseArgs) (v : Judged) : Option Delivered :=
  match v.verdict with
  | .lease n => some (deliver a v.seq v.message (satSuccU32 n))
  | _ => none

/-- The row that the dead-letter topic gets for the message. -/
def Judged.copy (kv : Kv) (a : LeaseArgs) (v : Judged) : Option (Nat × MessageRecord) :=
  match v.verdict with
  | .forward dlq n => some (dlq.id, copyRow kv a v.message dlq n)
  | _ => none

def appendRows (kv : Kv) (rows : List (Nat × MessageRecord)) : Kv :=
  rows.foldl (fun kv row => kv.appendRow row.1 row.2) kv

def totalCost (vs : List Judged) : Nat := (vs.map fun v => v.verdict.cost).sum

def judgeAll (a : LeaseArgs) (s : Engine) (c : CursorRecord) (rows : List (Nat × MessageRecord)) :
    List Judged :=
  rows.map fun row => ⟨row.1, row.2, judge a s c row.1 row.2⟩

section Frame

variable {a : LeaseArgs} {seq : Nat} {m : MessageRecord} {s t : Engine} {sc sc' : Scan}
  {v : Verdict}

theorem Decided.kv_eq (h : Decided a seq m s sc t sc' v) :
    ∃ topicSeq msg dlv w, t.kv = { s.kv with
      topicSeq := topicSeq, msg := msg, dlv := dlv, writes := w } := by
  cases v with
  | skip =>
    rw [h.1]
    exact ⟨_, _, _, _, rfl⟩
  | filtered =>
    rw [h.1]
    exact ⟨_, _, _, _, rfl⟩
  | lease n =>
    rw [h.2.1]
    exact ⟨_, _, _, _, rfl⟩
  | forward dlq n =>
    rw [h.2.1]
    exact ⟨_, _, _, _, rfl⟩
  | refuse e => exact h.elim

theorem Decided.leases_get (h : Decided a seq m s sc t sc' v) (i q : Nat) :
    t.leases.get i q = if i = a.subId ∧ q = seq then
      v.leaseAfter a seq (s.leases.get i q) else s.leases.get i q := by
  cases v with
  | skip =>
    rw [h.1]
    split_ifs <;> rfl
  | filtered =>
    rw [h.1]
    split_ifs <;> rfl
  | lease n => exact h.2.2.1.leases i q
  | forward dlq n => exact h.2.2.1.leases i q
  | refuse e => exact h.elim

theorem Decided.dlv_get (h : Decided a seq m s sc t sc' v) (i q : Nat) :
    t.kv.dlv.get ⟨i, q⟩ = if i = a.subId ∧ q = seq then
      v.rowAfter a seq (s.kv.dlv.get ⟨i, q⟩) else s.kv.dlv.get ⟨i, q⟩ := by
  cases v with
  | skip =>
    rw [h.1]
    split_ifs <;> rfl
  | filtered =>
    rw [h.1]
    split_ifs <;> rfl
  | lease n =>
    rw [h.2.1]
    simp only [SortedMap.get_insert, RowKey.mk.injEq]
    rfl
  | forward dlq n =>
    rw [h.2.1]
    simp only [SortedMap.get_erase, RowKey.mk.injEq]
    rfl
  | refuse e => exact h.elim

theorem Decided.scan_eq (h : Decided a seq m s sc t sc' v) :
    sc'.out = sc.out ++ (Judged.delivery a ⟨seq, m, v⟩).toList ∧
      sc'.cursor = (if v.finishes then markDone sc.cursor seq else sc.cursor) ∧
      sc'.cursorChanged = (sc.cursorChanged || v.finishes) := by
  cases v with
  | skip =>
    rw [h.2]
    exact ⟨(List.append_nil _).symm, rfl, (Bool.or_false _).symm⟩
  | filtered =>
    rw [h.2]
    exact ⟨(List.append_nil _).symm, rfl, (Bool.or_true _).symm⟩
  | lease n =>
    rw [h.2.2.2.2]
    exact ⟨rfl, rfl, (Bool.or_false _).symm⟩
  | forward dlq n =>
    rw [h.2.2.2.2]
    exact ⟨(List.append_nil _).symm, rfl, (Bool.or_true _).symm⟩
  | refuse e => exact h.elim

theorem Decided.isDone (h : Decided a seq m s sc t sc' v) (q : Nat) :
    sc'.cursor.isDone q = true ↔ sc.cursor.isDone q = true ∨ q = seq ∧ v.finishes = true := by
  rw [h.scan_eq.2.1]
  split_ifs with hf
  · rw [markDone_isDone]
    simp [hf]
  · simp [hf]

theorem Decided.judge_eq (h : Decided a seq m s sc t sc' v) {q : Nat} (hq : q ≠ seq)
    (m' : MessageRecord) : judge a t sc'.cursor q m' = judge a s sc.cursor q m' := by
  obtain ⟨topicSeq, msg, dlv, w, hkv⟩ := h.kv_eq
  have hlease : t.leases.get a.subId q = s.leases.get a.subId q := by
    rw [h.leases_get, if_neg fun hk => hq hk.2]
  have hrow : t.kv.dlv.get ⟨a.subId, q⟩ = s.kv.dlv.get ⟨a.subId, q⟩ := by
    rw [h.dlv_get, if_neg fun hk => hq hk.2]
  have hdone : sc'.cursor.isDone q = sc.cursor.isDone q := by
    rw [Bool.eq_iff_iff, h.isDone]
    exact or_iff_left fun hk => hq hk.1
  have hlast : t.lastDelivery a.subId q = s.lastDelivery a.subId q := by
    rw [Engine.lastDelivery, Engine.lastDelivery, hlease, hrow]
  have hheld : t.heldAt a.nowMs a.subId q = s.heldAt a.nowMs a.subId q := by
    rw [Engine.heldAt, Engine.heldAt, hlease]
  have hpolicy : reclaimPolicy t.kv a.subId = reclaimPolicy s.kv a.subId := by
    rw [hkv]
    rfl
  have hagain : ∀ n, redeliver t.kv (reclaimPolicy s.kv a.subId) m' n =
      redeliver s.kv (reclaimPolicy s.kv a.subId) m' n := by
    intro n
    rw [hkv]
    rfl
  simp only [judge, hdone, hheld, hpolicy, hlast, Engine.priorAttempts, hagain]

theorem Decided.kv_appended (h : Decided a seq m s sc t sc' v) :
    ∃ dlv, t.kv = { appendRows s.kv (Judged.copy s.kv a ⟨seq, m, v⟩).toList with
      dlv := dlv, writes := s.kv.writes + v.cost } := by
  cases v with
  | skip =>
    rw [h.1]
    exact ⟨_, rfl⟩
  | filtered =>
    rw [h.1]
    exact ⟨_, rfl⟩
  | lease n => exact ⟨_, h.2.1⟩
  | forward dlq n => exact ⟨_, h.2.1⟩
  | refuse e => exact h.elim

theorem Decided.ok (h : Decided a seq m s sc t sc' v) :
    ∀ k < v.cost, s.kv.ok (s.kv.writes + k) = true := by
  intro k hk
  cases v with
  | lease n =>
    have hk : k = 0 := Nat.lt_one_iff.mp hk
    rw [hk]
    exact h.1
  | forward dlq n => exact h.1 k hk
  | refuse e => exact h.elim
  | _ => exact absurd hk (Nat.not_lt_zero k)

/-- What the visit of a message leaves alone, and whom it reports as dead-lettered. -/
theorem Decided.rest (h : Decided a seq m s sc t sc' v) :
    (s.leases.Coherent → t.leases.Coherent) ∧ t.streams = s.streams ∧ t.filters = s.filters ∧
      ∃ added, t.deadLettered = s.deadLettered ++ added ∧ added.map (fun en => (en.subId, en.seq)) =
        ((Judged.copy s.kv a ⟨seq, m, v⟩).map fun _ => (a.subId, seq)).toList := by
  cases v with
  | skip =>
    rw [h.1]
    exact ⟨fun h => h, rfl, rfl, [], (List.append_nil _).symm, rfl⟩
  | filtered =>
    rw [h.1]
    exact ⟨fun h => h, rfl, rfl, [], (List.append_nil _).symm, rfl⟩
  | lease n =>
    obtain ⟨_, _, hr, hd, _⟩ := h
    exact ⟨hr.coherent, hr.streams, hr.filters, [], hd.trans (List.append_nil _).symm, rfl⟩
  | forward dlq n =>
    obtain ⟨_, _, hr, hd, _⟩ := h
    exact ⟨hr.coherent, hr.streams, hr.filters, _, hd, rfl⟩
  | refuse e => exact h.elim

end Frame

section Loop

/-- What a scan that visited the messages `vs` has done. -/
structure ScanExact (a : LeaseArgs) (vs : List Judged) (s : Engine) (sc : Scan) (t : Engine)
    (sc' : Scan) : Prop where
  taken : ∀ v ∈ vs, ∀ e, v.verdict ≠ .refuse e
  ok : ∀ k < totalCost vs, s.kv.ok (s.kv.writes + k) = true
  kv : ∃ dlv, t.kv = { appendRows s.kv (vs.filterMap (Judged.copy s.kv a)) with
    dlv := dlv, writes := s.kv.writes + totalCost vs }
  visited : ∀ v ∈ vs,
    t.leases.get a.subId v.seq = v.verdict.leaseAfter a v.seq (s.leases.get a.subId v.seq) ∧
    t.kv.dlv.get ⟨a.subId, v.seq⟩ = v.verdict.rowAfter a v.seq (s.kv.dlv.get ⟨a.subId, v.seq⟩)
  others : ∀ i q, (i = a.subId → ∀ v ∈ vs, v.seq ≠ q) →
    t.leases.get i q = s.leases.get i q ∧ t.kv.dlv.get ⟨i, q⟩ = s.kv.dlv.get ⟨i, q⟩
  coherent : s.leases.Coherent → t.leases.Coherent
  streams : t.streams = s.streams
  filters : t.filters = s.filters
  log : ∃ added, t.deadLettered = s.deadLettered ++ added ∧
    added.map (fun en => (en.subId, en.seq)) =
      vs.filterMap (fun v => (v.copy s.kv a).map fun _ => (a.subId, v.seq))
  out : sc'.out = sc.out ++ vs.filterMap (Judged.delivery a)
  done : ∀ q, sc'.cursor.isDone q = true ↔
    sc.cursor.isDone q = true ∨ ∃ v ∈ vs, v.seq = q ∧ v.verdict.finishes = true
  changed : sc'.cursorChanged = (sc.cursorChanged || vs.any fun v => v.verdict.finishes)
  unchanged : (vs.any fun v => v.verdict.finishes) = false → sc'.cursor = sc.cursor

variable {a : LeaseArgs} {s t : Engine} {sc sc' : Scan}

theorem ScanExact.nil : ScanExact a [] s sc s sc where
  taken _ h := by cases h
  ok _ h := absurd h (Nat.not_lt_zero _)
  kv := ⟨_, rfl⟩
  visited _ h := by cases h
  others _ _ _ := ⟨rfl, rfl⟩
  coherent h := h
  streams := rfl
  filters := rfl
  log := ⟨[], (List.append_nil _).symm, rfl⟩
  out := (List.append_nil _).symm
  done q := ⟨Or.inl, fun h => h.elim id fun ⟨_, h, _⟩ => by cases h⟩
  changed := (Bool.or_false _).symm
  unchanged _ := rfl

theorem appendRows_update (kv : Kv) (rows : List (Nat × MessageRecord))
    (dlv : SortedMap RowKey DeliveryRecord) (w : Nat) :
    appendRows { kv with dlv := dlv, writes := w } rows =
      { appendRows kv rows with dlv := dlv, writes := w } := by
  induction rows generalizing kv with
  | nil => rfl
  | cons row rows ih => exact ih (kv.appendRow row.1 row.2)

theorem appendRows_append (kv : Kv) (rows rows' : List (Nat × MessageRecord)) :
    appendRows kv (rows ++ rows') = appendRows (appendRows kv rows) rows' :=
  List.foldl_append

theorem appendRows_kept (kv : Kv) (rows : List (Nat × MessageRecord)) :
    ∃ topicSeq msg, appendRows kv rows = { kv with topicSeq := topicSeq, msg := msg } := by
  induction rows generalizing kv with
  | nil => exact ⟨_, _, rfl⟩
  | cons row rows ih =>
    obtain ⟨topicSeq, msg, h⟩ := ih (kv.appendRow row.1 row.2)
    exact ⟨topicSeq, msg, h⟩

theorem copy_eq {kv kv' : Kv} (h : kv'.subs = kv.subs) (v : Judged) :
    v.copy kv' a = v.copy kv a := by
  have hpolicy : reclaimPolicy kv' a.subId = reclaimPolicy kv a.subId := by
    rw [reclaimPolicy, reclaimPolicy, h]
  unfold Judged.copy copyRow
  rw [hpolicy]

theorem Decided.scanExact {v : Judged} {vs : List Judged} {u : Engine} {sc₁ : Scan}
    (h : Decided a v.seq v.message s sc u sc₁ v.verdict) (hne : ∀ x ∈ vs, x.seq ≠ v.seq)
    (h' : ScanExact a vs u sc₁ t sc') : ScanExact a (v :: vs) s sc t sc' := by
  obtain ⟨hcoh, hstreams, hfilters, added, hlog, hadded⟩ := h.rest
  obtain ⟨_, _, _, _, hkept⟩ := h.kv_eq
  have hsubs : u.kv.subs = s.kv.subs := by rw [hkept]
  have hcopy : ∀ x : Judged, x.copy u.kv a = x.copy s.kv a := copy_eq hsubs
  have hoks : u.kv.ok = s.kv.ok := by rw [hkept]
  have hwrites : u.kv.writes = s.kv.writes + v.verdict.cost := by
    obtain ⟨dlv, hd⟩ := h.kv_appended
    rw [hd]
  have hcost : totalCost (v :: vs) = v.verdict.cost + totalCost vs := by
    simp only [totalCost, List.map_cons, List.sum_cons]
  refine ⟨fun x hx e => ?_, fun k hk => ?_, ?_, fun x hx => ?_, fun i q hq => ?_,
    fun hc => h'.coherent (hcoh hc), h'.streams.trans hstreams, h'.filters.trans hfilters, ?_, ?_,
    fun q => ?_, ?_, fun hun => ?_⟩
  · rcases List.mem_cons.mp hx with rfl | hx
    · intro he
      rw [he] at h
      exact h
    · exact h'.taken x hx e
  · rw [hcost] at hk
    by_cases hlt : k < v.verdict.cost
    · exact h.ok k hlt
    · have hrest := h'.ok (k - v.verdict.cost) (by omega)
      rw [hoks, hwrites] at hrest
      have hk' : s.kv.writes + v.verdict.cost + (k - v.verdict.cost) = s.kv.writes + k := by omega
      rwa [hk'] at hrest
  · obtain ⟨dlv₁, h₁⟩ := h.kv_appended
    obtain ⟨dlv, h₂⟩ := h'.kv
    refine ⟨dlv, ?_⟩
    have hrows : (v :: vs).filterMap (Judged.copy s.kv a) =
        (v.copy s.kv a).toList ++ vs.filterMap (Judged.copy u.kv a) := by
      rw [funext hcopy]
      cases hv : v.copy s.kv a <;> simp [hv]
    rw [h₂, hrows, appendRows_append, hcost, hwrites, ← Nat.add_assoc]
    rw [h₁, appendRows_update]
  · rcases List.mem_cons.mp hx with rfl | hx
    · obtain ⟨hl, hr⟩ := h'.others a.subId x.seq fun _ y hy => hne y hy
      rw [hl, hr, h.leases_get, h.dlv_get, if_pos ⟨rfl, rfl⟩, if_pos ⟨rfl, rfl⟩]
      exact ⟨rfl, rfl⟩
    · obtain ⟨hl, hr⟩ := h'.visited x hx
      rw [hl, hr, h.leases_get, h.dlv_get, if_neg fun hk => hne x hx hk.2,
        if_neg fun hk => hne x hx hk.2]
      exact ⟨rfl, rfl⟩
  · obtain ⟨hl, hr⟩ := h'.others i q fun hi y hy => hq hi y (List.mem_cons_of_mem _ hy)
    have hk : ¬ (i = a.subId ∧ q = v.seq) := fun hk => hq hk.1 v List.mem_cons_self hk.2.symm
    rw [hl, hr, h.leases_get, h.dlv_get, if_neg hk, if_neg hk]
    exact ⟨rfl, rfl⟩
  · obtain ⟨added', hlog', hadded'⟩ := h'.log
    refine ⟨added ++ added', by rw [hlog', hlog, List.append_assoc], ?_⟩
    rw [List.map_append, hadded, hadded']
    simp only [hcopy]
    cases hv : v.copy s.kv a <;> simp [hv]
  · rw [h'.out, h.scan_eq.1, List.append_assoc]
    congr 1
    cases hv : v.delivery a <;> simp [hv]
  · rw [h'.done, h.isDone, List.exists_mem_cons_iff, or_assoc]
    refine or_congr Iff.rfl (or_congr ?_ Iff.rfl)
    exact and_congr_left fun _ => eq_comm
  · rw [h'.changed, h.scan_eq.2.2, List.any_cons, Bool.or_assoc]
  · rw [List.any_cons, Bool.or_eq_false_iff] at hun
    rw [h'.unchanged hun.2, h.scan_eq.2.1, if_neg (by simp [hun.1])]

/-- The messages that a scan visits when it may still lease `n`, with the decisions of
the state it starts in. -/
def visits (a : LeaseArgs) (s : Engine) (c : CursorRecord) (n : Nat)
    (rows : List (Nat × MessageRecord)) : List Judged :=
  Budget.visited (fun v => v.verdict.leases) n (judgeAll a s c rows)

def ScanBroke (a : LeaseArgs) (vs : List Judged) (s : Engine) (sc : Scan) (e : Error)
    (t : Engine) : Prop :=
  ∃ pre v post u sc₁, vs = pre ++ v :: post ∧ ScanExact a pre s sc u sc₁ ∧
    Broke a v.seq v.message u t e v.verdict

theorem Decided.scanBroke {v : Judged} {vs : List Judged} {u : Engine} {sc₁ : Scan} {e : Error}
    (h : Decided a v.seq v.message s sc u sc₁ v.verdict) (hne : ∀ x ∈ vs, x.seq ≠ v.seq)
    (h' : ScanBroke a vs u sc₁ e t) : ScanBroke a (v :: vs) s sc e t := by
  obtain ⟨pre, x, post, u₁, sc₂, hvs, hpre, hbroke⟩ := h'
  refine ⟨v :: pre, x, post, u₁, sc₂, by rw [hvs, List.cons_append], ?_, hbroke⟩
  refine h.scanExact (fun y hy => hne y ?_) hpre
  rw [hvs]
  exact List.mem_append_left _ hy

theorem Decided.judgeAll_eq {seq : Nat} {m : MessageRecord} {v : Verdict} {u : Engine}
    {sc₁ : Scan} (h : Decided a seq m s sc u sc₁ v) {rows : List (Nat × MessageRecord)}
    (hne : ∀ q ∈ rows.map Prod.fst, seq < q) :
    judgeAll a u sc₁.cursor rows = judgeAll a s sc.cursor rows := by
  refine List.map_congr_left fun row hrow => ?_
  have hlt := hne row.1 (List.mem_map.mpr ⟨row, hrow, rfl⟩)
  rw [h.judge_eq (by omega)]

theorem Decided.out_length {seq : Nat} {m : MessageRecord} {v : Verdict} {u : Engine}
    {sc₁ : Scan} (h : Decided a seq m s sc u sc₁ v) :
    sc₁.out.length = sc.out.length + if v.leases then 1 else 0 := by
  rw [h.scan_eq.1, List.length_append]
  cases v <;> rfl

theorem mem_visits_seq {c : CursorRecord} {n : Nat} {rows : List (Nat × MessageRecord)} {v : Judged}
    (h : v ∈ visits a s c n rows) : (v.seq, v.message) ∈ rows ∧
      v.verdict = judge a s c v.seq v.message := by
  obtain ⟨row, hrow, rfl⟩ := List.mem_map.mp ((Budget.visited_initial _ _ _).subset h)
  exact ⟨hrow, rfl⟩

theorem ensures_leaseScan_exact (rows : List (Nat × MessageRecord)) (sc : Scan)
    (hsorted : (rows.map Prod.fst).Pairwise (· < ·)) :
    Ensures (leaseScan a sc rows) s
      (fun sc' t => ScanExact a (visits a s sc.cursor (a.maxMessages - sc.out.length) rows) s sc
        t sc')
      (fun e t => ScanBroke a (visits a s sc.cursor (a.maxMessages - sc.out.length) rows) s sc
        e t) := by
  induction rows generalizing s sc with
  | nil =>
    have hnil : visits a s sc.cursor (a.maxMessages - sc.out.length) [] = [] := by
      unfold visits
      cases a.maxMessages - sc.out.length <;> rfl
    rw [hnil]
    exact ScanExact.nil
  | cons row rows ih =>
    obtain ⟨seq, m⟩ := row
    obtain ⟨hlt, hsorted⟩ := List.pairwise_cons.mp hsorted
    simp only [leaseScan, ensures_ite, ensures_pure, ensures_bind]
    refine ⟨fun hmax => ?_, fun hmax => ?_⟩
    · have hzero : a.maxMessages - sc.out.length = 0 := by omega
      rw [hzero]
      exact ScanExact.nil
    obtain ⟨n, hn⟩ : ∃ n, a.maxMessages - sc.out.length = n + 1 :=
      ⟨a.maxMessages - sc.out.length - 1, by omega⟩
    have hvisits : visits a s sc.cursor (a.maxMessages - sc.out.length) ((seq, m) :: rows) =
        ⟨seq, m, judge a s sc.cursor seq m⟩ :: visits a s sc.cursor
          (if (judge a s sc.cursor seq m).leases then n else n + 1) rows := by
      rw [hn]
      rfl
    rw [hvisits]
    refine ensures_leaseOne_decided.mono (fun sc₁ u hu => ?_)
      (fun e t h => ⟨[], _, _, s, sc, rfl, ScanExact.nil, h⟩)
    -- the visit changes no decision about the rest, and uses up the budget it should
    have hleft : a.maxMessages - sc₁.out.length =
        if (judge a s sc.cursor seq m).leases then n else n + 1 := by
      rw [hu.out_length]
      split_ifs <;> omega
    have hrest := ih (s := u) sc₁ hsorted
    rw [hleft, visits, hu.judgeAll_eq hlt] at hrest
    have hne : ∀ x ∈ visits a s sc.cursor (if (judge a s sc.cursor seq m).leases then n else n + 1)
        rows, x.seq ≠ seq := by
      intro x hx
      have hlt := hlt x.seq (List.mem_map.mpr ⟨_, (mem_visits_seq hx).1, rfl⟩)
      omega
    exact hrest.mono
      (fun _ _ h => Decided.scanExact (v := ⟨seq, m, judge a s sc.cursor seq m⟩) hu hne h)
      (fun _ _ h => Decided.scanBroke (v := ⟨seq, m, judge a s sc.cursor seq m⟩) hu hne h)

end Loop

section Call

variable {a : LeaseArgs} {s t : Engine} {c : CursorRecord}

def planned (a : LeaseArgs) (s : Engine) (c : CursorRecord) : List Judged :=
  visits a s c a.maxMessages (scanPrefix s.kv.msg a.topicId)

theorem mem_planned {v : Judged} (h : v ∈ planned a s c) :
    s.kv.msg.get ⟨a.topicId, v.seq⟩ = some v.message ∧
      v.verdict = judge a s c v.seq v.message := by
  obtain ⟨hrow, hv⟩ := mem_visits_seq h
  exact ⟨mem_scanPrefix.mp hrow, hv⟩

/-- The state once the cursor of the scan is written back. -/
def Engine.withCursor (s : Engine) (subId : Nat) (sc : Scan) : Engine :=
  if sc.cursorChanged then
    { s with kv := { s.kv.tick with cursors := s.kv.cursors.insert subId sc.cursor } }
  else s

def LeaseExact (a : LeaseArgs) (s : Engine) (c : CursorRecord) (out : List Delivered)
    (t : Engine) : Prop :=
  ∃ u sc, ScanExact a (planned a s c) s ⟨c, false, []⟩ u sc ∧ out = sc.out ∧
    (sc.cursorChanged = true → u.kv.ok u.kv.writes = true) ∧ t = u.withCursor a.subId sc

/-- What a call that fails has done: it broke off at a message, or the cursor could not
be written. -/
def LeaseBroke (a : LeaseArgs) (s : Engine) (c : CursorRecord) (e : Error) (t : Engine) : Prop :=
  ScanBroke a (planned a s c) s ⟨c, false, []⟩ e t ∨
    ∃ u sc, ScanExact a (planned a s c) s ⟨c, false, []⟩ u sc ∧ sc.cursorChanged = true ∧
      u.kv.ok u.kv.writes = false ∧ t = { u with kv := u.kv.tick }

theorem ensures_leaseNextLocked_exact :
    Ensures (leaseNextLocked a c) s (fun out t => LeaseExact a s c out t)
      (fun e t => LeaseBroke a s c e t) := by
  simp only [leaseNextLocked, ensures_bind, ensures_get, ensures_pure]
  refine (ensures_leaseScan_exact (scanPrefix s.kv.msg a.topicId) ⟨c, false, []⟩
    (scanPrefix_increasing _ _)).mono (fun sc u h => ?_) (fun e t h => Or.inl h)
  simp only [saveChanged, saveCursor, ensures_ite, ensures_onKv, putCursor, ensures_kvWrite,
    ensures_pure]
  refine ⟨fun hch => ⟨fun hok => ?_, fun hbad => ?_⟩, fun hch => ?_⟩
  · exact ⟨u, sc, h, rfl, fun _ => hok, by rw [Engine.withCursor, if_pos hch]; rfl⟩
  · exact Or.inr ⟨u, sc, h, hch, hbad, rfl⟩
  · exact ⟨u, sc, h, rfl, fun hc => absurd hc hch, by rw [Engine.withCursor, if_neg hch]⟩

/-- The state once the filter of the subscription is in the cache. -/
def Engine.cacheFilter (s : Engine) (subId : Nat) : Engine :=
  { s with filters := match s.filters.get subId with
    | some _ => s.filters
    | none => s.filters.insert subId (storedFilter s.kv subId) }

theorem ensures_compiledFilter_eq {subId : Nat} {Q : Option Expr → Engine → Prop}
    {E : Error → Engine → Prop} :
    Ensures (compiledFilter subId) s Q E ↔ Q (s.filterOf subId) (s.cacheFilter subId) := by
  simp only [compiledFilter, ensures_bind, ensures_get, Engine.filterOf, Engine.cacheFilter]
  cases s.filters.get subId <;> rfl

/-- The arguments that the scan of the call works with. -/
def leaseArgs (s : Engine) (subId topicId : Nat) (maxMessages nowMs ackDeadlineSecs : Int) :
    LeaseArgs :=
  ⟨subId, topicId, maxMessages.toNat, nowMs, ackDeadlineSecs, s.filterOf subId⟩

variable {subId : Nat} (topicId : Nat) {maxMessages : Int} (nowMs secs : Int)

theorem ensures_leaseNext_exact (hmax : 0 < maxMessages) (hc : s.kv.cursors.get subId = some c) :
    Ensures (leaseNext subId topicId maxMessages nowMs secs) s
      (fun out t => LeaseExact (leaseArgs s subId topicId maxMessages nowMs secs)
        (s.cacheFilter subId) c out t)
      (fun e t => LeaseBroke (leaseArgs s subId topicId maxMessages nowMs secs)
        (s.cacheFilter subId) c e t) := by
  simp only [leaseNext, ensures_ite, loadCursor, ensures_bind, ensures_get, hc, ensures_pure,
    ensures_compiledFilter_eq]
  exact ⟨fun hle => absurd hmax (not_lt.mpr hle), fun _ => ensures_leaseNextLocked_exact⟩

theorem leaseNext_no_cursor (hmax : 0 < maxMessages) (hc : s.kv.cursors.get subId = none) :
    ∃ e, leaseNext subId topicId maxMessages nowMs secs s = .error e s := by
  have h : Ensures (leaseNext subId topicId maxMessages nowMs secs) s (fun _ _ => False)
      (fun _ t => t = s) := by
    simp only [leaseNext, ensures_ite, loadCursor, ensures_bind, ensures_get, hc, ensures_throw,
      ensures_pure]
    exact ⟨fun hle => absurd hmax (not_lt.mpr hle), fun _ => trivial⟩
  cases hr : leaseNext subId topicId maxMessages nowMs secs s with
  | ok out t => exact (h.of_ok hr).elim
  | error e t => exact ⟨e, by rw [h.of_error hr]⟩

theorem planned_cacheFilter (i : Nat) : planned a (s.cacheFilter i) c = planned a s c := rfl

end Call

end OpenPubusb
