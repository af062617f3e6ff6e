import OpenPubusb.LogSteps

/-! The retention sweep removes exactly the expired messages and, of their
topic's subscriptions, the delivery rows; two sweeps remove what the later one
alone would have removed. -/

namespace OpenPubusb

open Hoare

def Due (nowMs : Int) (rows : List (RowKey × MessageRecord)) (key : RowKey) : Prop :=
  ∃ m, (key, m) ∈ rows ∧ m.expireAtMs ≤ nowMs

/-- The delivery rows that go with those of the list. -/
def DueRow (nowMs : Int) (idx : SortedMap RowKey Unit) (rows : List (RowKey × MessageRecord))
    (key : RowKey) : Prop :=
  ∃ topicId, (idx.get ⟨topicId, key.id⟩).isSome ∧ Due nowMs rows ⟨topicId, key.seq⟩

def expiredCount (nowMs : Int) (rows : List (RowKey × MessageRecord)) : Nat :=
  rows.countP (fun e => e.2.expireAtMs ≤ nowMs)

/-- What the sweep over `rows` leaves, and what it counts. -/
structure SweptExactly (nowMs : Int) (rows : List (RowKey × MessageRecord)) (kv : Kv) (n : Nat)
    (kv' : Kv) : Prop where
  gone : ∀ key, Due nowMs rows key → kv'.msg.get key = none
  kept : ∀ key, ¬ Due nowMs rows key → kv'.msg.get key = kv.msg.get key
  rowGone : ∀ key, DueRow nowMs kv.idx rows key → kv'.dlv.get key = none
  rowKept : ∀ key, ¬ DueRow nowMs kv.idx rows key → kv'.dlv.get key = kv.dlv.get key
  rest : kv' = { kv with msg := kv'.msg, dlv := kv'.dlv, writes := kv'.writes }
  count : n = expiredCount nowMs rows

variable {nowMs : Int} {kv kv' : Kv}

theorem due_cons {rows : List (RowKey × MessageRecord)} {key k : RowKey} {m : MessageRecord} :
    Due nowMs ((k, m) :: rows) key ↔ key = k ∧ m.expireAtMs ≤ nowMs ∨ Due nowMs rows key := by
  simp only [Due, List.mem_cons, Prod.mk.injEq]
  constructor
  · rintro ⟨m', ⟨hk, rfl⟩ | hm, he⟩
    · exact Or.inl ⟨hk, he⟩
    · exact Or.inr ⟨m', hm, he⟩
  · rintro (⟨hk, he⟩ | ⟨m', hm, he⟩)
    · exact ⟨m, Or.inl ⟨hk, rfl⟩, he⟩
    · exact ⟨m', Or.inr hm, he⟩

theorem dueRow_cons {idx : SortedMap RowKey Unit} {rows : List (RowKey × MessageRecord)}
    {key k : RowKey} {m : MessageRecord} :
    DueRow nowMs idx ((k, m) :: rows) key ↔
      key.seq = k.seq ∧ (idx.get ⟨k.id, key.id⟩).isSome ∧ m.expireAtMs ≤ nowMs ∨
        DueRow nowMs idx rows key := by
  simp only [DueRow, due_cons]
  constructor
  · rintro ⟨t, hi, ⟨hk, he⟩ | hd⟩
    · subst hk
      exact Or.inl ⟨rfl, hi, he⟩
    · exact Or.inr ⟨t, hi, hd⟩
  · rintro (⟨hq, hi, he⟩ | ⟨t, hi, hd⟩)
    · exact ⟨k.id, hi, Or.inl ⟨by rw [hq], he⟩⟩
    · exact ⟨t, hi, Or.inr hd⟩

theorem SweptExactly.live {rows : List (RowKey × MessageRecord)} {n : Nat} {k : RowKey}
    {m : MessageRecord} (h : SweptExactly nowMs rows kv n kv') (hm : nowMs < m.expireAtMs) :
    SweptExactly nowMs ((k, m) :: rows) kv n kv' := by
  have hdue : ∀ key, Due nowMs ((k, m) :: rows) key ↔ Due nowMs rows key := by
    intro key
    rw [due_cons]
    exact or_iff_right fun h => absurd h.2 (not_le.mpr hm)
  have hrow : ∀ key, DueRow nowMs kv.idx ((k, m) :: rows) key ↔ DueRow nowMs kv.idx rows key := by
    intro key
    simp only [DueRow, hdue]
  refine ⟨fun key hk => h.gone key ((hdue key).mp hk), fun key hk => h.kept key (by rwa [← hdue]),
    fun key hk => h.rowGone key ((hrow key).mp hk),
    fun key hk => h.rowKept key (by rwa [← hrow]), h.rest, ?_⟩
  rw [h.count, expiredCount, expiredCount, List.countP_cons_of_neg (by simpa using hm)]

theorem SweptExactly.expired {rows : List (RowKey × MessageRecord)} {n w : Nat} {k : RowKey}
    {m : MessageRecord} {dlv : SortedMap RowKey DeliveryRecord}
    (h : SweptExactly nowMs rows { kv with msg := kv.msg.erase k, dlv := dlv, writes := w } n kv')
    (hm : m.expireAtMs ≤ nowMs) (hdlv : ∀ i q, dlv.get ⟨i, q⟩ =
      if q = k.seq ∧ i ∈ SubscriptionStore.listByTopicId kv k.id then none
      else kv.dlv.get ⟨i, q⟩) :
    SweptExactly nowMs ((k, m) :: rows) kv (n + 1) kv' := by
  refine ⟨fun key hk => ?_, fun key hk => ?_, fun key hk => ?_, fun key hk => ?_, ?_, ?_⟩
  · by_cases hd : Due nowMs rows key
    · exact h.gone key hd
    · rw [h.kept key hd, ((due_cons.mp hk).resolve_right hd).1]
      exact SortedMap.get_erase_self ..
  · rw [due_cons, not_or] at hk
    rw [h.kept key hk.2]
    exact SortedMap.get_erase_ne _ fun he => hk.1 ⟨he, hm⟩
  · by_cases hd : DueRow nowMs kv.idx rows key
    · exact h.rowGone key hd
    · obtain ⟨hq, hi, _⟩ := (dueRow_cons.mp hk).resolve_right hd
      rw [h.rowKept key hd]
      exact (hdlv key.id key.seq).trans (if_pos ⟨hq, isSome_mem_listByTopicId hi⟩)
  · rw [dueRow_cons, not_or] at hk
    rw [h.rowKept key hk.2]
    refine (hdlv key.id key.seq).trans (if_neg fun hd => hk.1 ⟨hd.1, ?_, hm⟩)
    exact mem_listByTopicId hd.2
  · rw [h.rest]
  · rw [h.count, expiredCount, expiredCount, List.countP_cons_of_pos (by simpa using hm)]

theorem ensures_sweepMessages_exact (rows : List (RowKey × MessageRecord)) (hh : kv.Healthy) :
    Ensures (sweepMessages nowMs rows) kv (fun n kv' => SweptExactly nowMs rows kv n kv')
      (fun _ _ => False) := by
  induction rows generalizing kv with
  | nil =>
    refine ⟨fun _ h => ?_, fun _ _ => rfl, fun _ h => ?_, fun _ _ => rfl, rfl, rfl⟩
    · obtain ⟨_, h, _⟩ := h
      cases h
    · obtain ⟨_, _, _, h, _⟩ := h
      cases h
  | cons e rows ih =>
    obtain ⟨k, m⟩ := e
    rw [sweepMessages, ensures_ite]
    refine ⟨fun hlive => (ih hh).mono (fun _ _ h => h.live hlive) (fun _ _ h => h), fun hexp => ?_⟩
    simp only [ensures_bind, ensures_succeeds, deleteMsg, ensures_kvWrite_healthy hh, ensures_ite,
      ensures_get, ensures_pure, not_true_eq_false, false_implies, true_implies, and_true]
    have hh₀ : Kv.Healthy { kv.tick with msg := kv.msg.erase k } := fun n => hh n
    refine (ensures_dropRows k.seq _ hh₀ _).mono (fun _ kv₁ h => ?_) (fun _ _ h => h)
    obtain ⟨⟨dlv, w, rfl⟩, hdlv⟩ := h
    have hrest : Ensures (sweepMessages nowMs rows)
        { kv with msg := kv.msg.erase k, dlv := dlv, writes := w }
        (fun n kv' => SweptExactly nowMs rows { kv with msg := kv.msg.erase k, dlv := dlv, writes := w }
          n kv') (fun _ _ => False) := ih fun n => hh n
    exact hrest.mono (fun _ _ h => h.expired (not_lt.mp hexp) hdlv) (fun _ _ h => h)

theorem due_entries {key : RowKey} :
    Due nowMs kv.msg.entries key ↔ ∃ m, kv.msg.get key = some m ∧ m.expireAtMs ≤ nowMs := by
  simp only [Due, SortedMap.mem_entries]

theorem sweepExpiredMessages_exact (hh : kv.Healthy) :
    ∃ n kv', sweepExpiredMessages nowMs kv = .ok n kv' ∧
      SweptExactly nowMs kv.msg.entries kv n kv' := by
  have hsweep : Ensures (sweepExpiredMessages nowMs) kv
      (fun n kv' => SweptExactly nowMs kv.msg.entries kv n kv') (fun _ _ => False) := by
    simp only [sweepExpiredMessages, ensures_bind, ensures_get]
    exact ensures_sweepMessages_exact _ hh
  cases hrun : sweepExpiredMessages nowMs kv with
  | ok n kv' => exact ⟨n, kv', rfl, hsweep.of_ok hrun⟩
  | error e kv' => exact (hsweep.of_error hrun).elim

section Compose

variable {t₁ t₂ : Int} {n₁ n₂ n : Nat} {kv₁ kv₂ : Kv}

theorem due_second (h : SweptExactly t₁ kv.msg.entries kv n₁ kv₁) (key : RowKey) :
    Due t₂ kv₁.msg.entries key ↔ Due t₂ kv.msg.entries key ∧ ¬ Due t₁ kv.msg.entries key := by
  by_cases hd : Due t₁ kv.msg.entries key
  · simp only [due_entries, h.gone key hd, reduceCtorEq, false_and, exists_false, false_iff,
      not_and, not_not]
    exact fun _ => due_entries.mp hd
  · rw [due_entries, @due_entries _ kv, h.kept key hd]
    exact ⟨fun hm => ⟨hm, hd⟩, fun hm => hm.1⟩

theorem due_mono (hle : t₁ ≤ t₂) {rows : List (RowKey × MessageRecord)} {key : RowKey}
    (h : Due t₁ rows key) : Due t₂ rows key := by
  obtain ⟨m, hm, he⟩ := h
  exact ⟨m, hm, he.trans hle⟩

theorem msg_swept (h : SweptExactly t₁ kv.msg.entries kv n₁ kv₁) :
    kv₁.msg = ⟨kv.msg.entries.filter (fun e => t₁ < e.2.expireAtMs), kv.msg.sorted.filter _⟩ := by
  refine SortedMap.ext_get fun key => Option.ext fun m => Iff.trans ?_ SortedMap.mem_entries
  rw [List.mem_filter, SortedMap.mem_entries, decide_eq_true_eq]
  by_cases hd : Due t₁ kv.msg.entries key
  · obtain ⟨m', hm', he⟩ := due_entries.mp hd
    rw [h.gone key hd, hm']
    refine ⟨nofun, fun hm => ?_⟩
    cases hm.1
    exact absurd hm.2 (not_lt.mpr he)
  · rw [h.kept key hd]
    refine ⟨fun hm => ⟨hm, ?_⟩, fun hm => hm.1⟩
    exact not_le.mp fun he => hd (due_entries.mpr ⟨m, hm, he⟩)

theorem count_second (hle : t₁ ≤ t₂) (h : SweptExactly t₁ kv.msg.entries kv n₁ kv₁) :
    n₁ + expiredCount t₂ kv₁.msg.entries = expiredCount t₂ kv.msg.entries := by
  rw [h.count, msg_swept h]
  simp only [expiredCount]
  generalize kv.msg.entries = rows
  induction rows with
  | nil => rfl
  | cons e rows ih =>
    by_cases h₁ : e.2.expireAtMs ≤ t₁
    · have h₂ := h₁.trans hle
      rw [List.filter_cons_of_neg (by simpa using h₁), List.countP_cons_of_pos (by simpa using h₁),
        List.countP_cons_of_pos (by simpa using h₂)]
      omega
    · rw [List.filter_cons_of_pos (by simpa using h₁), List.countP_cons_of_neg (by simpa using h₁),
        List.countP_cons, List.countP_cons]
      omega

theorem swept_twice (hle : t₁ ≤ t₂) (h₁ : SweptExactly t₁ kv.msg.entries kv n₁ kv₁)
    (h₂ : SweptExactly t₂ kv₁.msg.entries kv₁ n₂ kv₂)
    (h : SweptExactly t₂ kv.msg.entries kv n kv') :
    n₁ + n₂ = n ∧ kv₂ = { kv' with writes := kv₂.writes } := by
  have hidx : kv₁.idx = kv.idx := by rw [h₁.rest]
  have hmsg : kv₂.msg = kv'.msg := by
    refine SortedMap.ext_get fun key => ?_
    by_cases hd₂ : Due t₂ kv.msg.entries key
    · rw [h.gone key hd₂]
      by_cases hd₁ : Due t₁ kv.msg.entries key
      · rw [h₂.kept key fun hk => ((due_second h₁ key).mp hk).2 hd₁, h₁.gone key hd₁]
      · exact h₂.gone key ((due_second h₁ key).mpr ⟨hd₂, hd₁⟩)
    · rw [h.kept key hd₂, h₂.kept key fun hk => hd₂ ((due_second h₁ key).mp hk).1,
        h₁.kept key fun hk => hd₂ (due_mono hle hk)]
  have hrow : ∀ key, DueRow t₂ kv.idx kv.msg.entries key ↔
      DueRow t₁ kv.idx kv.msg.entries key ∨ DueRow t₂ kv₁.idx kv₁.msg.entries key := by
    intro key
    simp only [DueRow, hidx, due_second h₁]
    constructor
    · rintro ⟨t, hi, hd⟩
      by_cases hd₁ : Due t₁ kv.msg.entries ⟨t, key.seq⟩
      · exact Or.inl ⟨t, hi, hd₁⟩
      · exact Or.inr ⟨t, hi, hd, hd₁⟩
    · rintro (⟨t, hi, hd⟩ | ⟨t, hi, hd, _⟩)
      · exact ⟨t, hi, due_mono hle hd⟩
      · exact ⟨t, hi, hd⟩
  have hdlv : kv₂.dlv = kv'.dlv := by
    refine SortedMap.ext_get fun key => ?_
    by_cases hd₂ : DueRow t₂ kv₁.idx kv₁.msg.entries key
    · rw [h₂.rowGone key hd₂, h.rowGone key ((hrow key).mpr (Or.inr hd₂))]
    · rw [h₂.rowKept key hd₂]
      by_cases hd₁ : DueRow t₁ kv.idx kv.msg.entries key
      · rw [h₁.rowGone key hd₁, h.rowGone key ((hrow key).mpr (Or.inl hd₁))]
      · rw [h₁.rowKept key hd₁, h.rowKept key fun hk => ((hrow key).mp hk).elim hd₁ hd₂]
  refine ⟨by rw [h₂.count, h.count, count_second hle h₁], ?_⟩
  rw [h₂.rest, h₁.rest, h.rest, hmsg, hdlv]

end Compose

/-- What the sweep does to a store: which rows go, which stay, and that its count is the
number of messages removed. -/
structure Retained (nowMs : Int) (kv : Kv) (n : Nat) (kv' : Kv) : Prop where
  expired : ∀ key m, kv.msg.get key = some m → m.expireAtMs ≤ nowMs → kv'.msg.get key = none
  live : ∀ key, (∀ m, kv.msg.get key = some m → nowMs < m.expireAtMs) →
    kv'.msg.get key = kv.msg.get key
  expiredRow : ∀ topicId subId seq m, (kv.idx.get ⟨topicId, subId⟩).isSome →
    kv.msg.get ⟨topicId, seq⟩ = some m → m.expireAtMs ≤ nowMs → kv'.dlv.get ⟨subId, seq⟩ = none
  liveRow : ∀ subId seq, (∀ topicId m, (kv.idx.get ⟨topicId, subId⟩).isSome →
    kv.msg.get ⟨topicId, seq⟩ = some m → nowMs < m.expireAtMs) →
    kv'.dlv.get ⟨subId, seq⟩ = kv.dlv.get ⟨subId, seq⟩
  rest : kv' = { kv with msg := kv'.msg, dlv := kv'.dlv, writes := kv'.writes }
  count : kv'.msg.size + n = kv.msg.size

theorem SweptExactly.retained {n : Nat} (h : SweptExactly nowMs kv.msg.entries kv n kv') :
    Retained nowMs kv n kv' := by
  refine ⟨fun key m hm he => h.gone key (due_entries.mpr ⟨m, hm, he⟩), fun key hlive => ?_,
    fun t i q m hi hm he => h.rowGone ⟨i, q⟩ ⟨t, hi, due_entries.mpr ⟨m, hm, he⟩⟩,
    fun i q hlive => ?_, h.rest, ?_⟩
  · refine h.kept key fun hd => ?_
    obtain ⟨m, hm, he⟩ := due_entries.mp hd
    exact absurd (hlive m hm) (not_lt.mpr he)
  · refine h.rowKept ⟨i, q⟩ fun ⟨t, hi, hd⟩ => ?_
    obtain ⟨m, hm, he⟩ := due_entries.mp hd
    exact absurd (hlive t m hi hm) (not_lt.mpr he)
  · rw [h.count, msg_swept h, SortedMap.size, SortedMap.size, expiredCount,
      ← List.countP_eq_length_filter, List.length_eq_countP_add_countP
        (fun e => decide (e.2.expireAtMs ≤ nowMs)), Nat.add_comm]
    congr 1
    exact List.countP_congr fun e _ => by simp

theorem retention_exact (hh : kv.Healthy) (nowMs : Int) :
    ∃ n kv', sweepExpiredMessages nowMs kv = .ok n kv' ∧ Retained nowMs kv n kv' ∧
      (Consistent kv → ∀ subId r seq, kv.subs.get subId = some r →
        (∀ m, kv.msg.get ⟨r.topicId, seq⟩ = some m → nowMs < m.expireAtMs) →
        kv'.dlv.get ⟨subId, seq⟩ = kv.dlv.get ⟨subId, seq⟩) ∧
      ∀ later, nowMs ≤ later → ∃ n₁ kv₁ n₂ kv₂,
        sweepExpiredMessages later kv' = .ok n₁ kv₁ ∧
        sweepExpiredMessages later kv = .ok n₂ kv₂ ∧
        n + n₁ = n₂ ∧ kv₁ = { kv₂ with writes := kv₁.writes } := by
  obtain ⟨n, kv', hrun, h⟩ := @sweepExpiredMessages_exact nowMs kv hh
  refine ⟨n, kv', hrun, h.retained, fun hc subId r seq hr hlive => ?_, fun later hle => ?_⟩
  · refine h.retained.liveRow subId seq fun t m hi hm => ?_
    obtain ⟨r', hr', ht⟩ := (hc.idx t subId).mp hi
    rw [hr, Option.some.injEq] at hr'
    subst hr'
    exact hlive m (ht ▸ hm)
  · have hh' : kv'.Healthy := by
      rw [h.rest]
      exact fun n => hh n
    obtain ⟨n₁, kv₁, hrun₁, h₁⟩ := @sweepExpiredMessages_exact later kv' hh'
    obtain ⟨n₂, kv₂, hrun₂, h₂⟩ := @sweepExpiredMessages_exact later kv hh
    exact ⟨n₁, kv₁, n₂, kv₂, hrun₁, hrun₂, swept_twice hle h h₁ h₂⟩

/-- The message of the set-up expires after 31 days. -/
theorem retention_exact_after_setup :
    ∃ kv', sweepExpiredMessages 2678400000 (Run.final step start (setup {})).kv = .ok 1 kv' ∧
      Retained 2678400000 (Run.final step start (setup {})).kv 1 kv' := by
  have hcount : (match sweepExpiredMessages 2678400000 (Run.final step start (setup {})).kv with
      | .ok n _ => n
      | .error _ _ => 0) = 1 := by
    decide +kernel
  obtain ⟨n, kv', hrun, h, _⟩ := retention_exact (consistent_final (setup {})).2 2678400000
  rw [hrun] at hcount
  dsimp only at hcount
  rw [hcount] at hrun h
  exact ⟨kv', hrun, h⟩

end OpenPubusb
