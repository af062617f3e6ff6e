import Mathlib.Algebra.BigOperators.Group.Finset.Basic
import Mathlib.Algebra.Order.BigOperators.Group.Finset
import Mathlib.Logic.Function.Basic
import OpenPubusb.LogRows
import OpenPubusb.Run

/-! Concurrent publishes to one topic, as interleavings of the store steps of
`append`: read the counter, write the counter, write the row. They lose nothing
exactly when no two calls are between the read and the write at the same time. -/

namespace OpenPubusb

inductive PublishPhase where
  | start
  | read (counter : Nat)
  | counted (seq : Nat)
  | failed
  deriving DecidableEq

/-- One call of `append`: the messages still to be stored, what it does next, and
the seqs it returns so far with their messages. -/
structure Publisher where
  pending : List MessageRecord
  phase : PublishPhase
  returned : List (Nat × MessageRecord)

def Publisher.step (topicId : Nat) (c : Publisher) : KvM Publisher :=
  match c.phase, c.pending with
  | .start, _ :: _ => do
    let kv ← get
    pure { c with phase := .read (TopicStore.currentTail kv topicId) }
  | .read n, _ :: _ => do
    putTopicSeq topicId (satSuccU64 n)
    pure { c with phase := .counted (satSuccU64 n) }
  | .counted seq, m :: ms => do
    putMsg topicId seq m
    pure ⟨ms, .start, c.returned ++ [(seq, m)]⟩
  | _, _ => pure c

def Publisher.steps (topicId : Nat) : Nat → Publisher → KvM Publisher
  | 0, c => pure c
  | n + 1, c => do
    let c ← c.step topicId
    c.steps topicId n

theorem bind_congr_ok {α β : Type} {m : KvM α} {f g : α → KvM β} {kv : Kv}
    (h : ∀ a kv', m kv = .ok a kv' → f a kv' = g a kv') : (m >>= f) kv = (m >>= g) kv := by
  show EStateM.bind m f kv = EStateM.bind m g kv
  unfold EStateM.bind
  cases hm : m kv with
  | ok a kv' => exact h a kv' hm
  | error e kv' => rfl

/-- As long as the counter has room, the steps of a call in a row are those of `append`. -/
theorem steps_eq_appendAll (topicId : Nat) (nowMs expireAtMs : Int)
    (messages : List PublishMessage) (returned : List (Nat × MessageRecord)) {kv : Kv}
    (hu64 : TopicStore.currentTail kv topicId + messages.length < 2 ^ 64) :
    Publisher.steps topicId (3 * messages.length)
        ⟨messages.map (TopicStore.record · nowMs expireAtMs), .start, returned⟩ kv = (do
      let seqs ← TopicStore.appendAll topicId nowMs expireAtMs messages
      pure ⟨[], .start, returned ++
        seqs.zip (messages.map (TopicStore.record · nowMs expireAtMs))⟩ : KvM Publisher) kv := by
  induction messages generalizing returned kv with
  | nil => simp [Publisher.steps, TopicStore.appendAll]
  | cons m ms ih =>
    have hlen : 3 * (m :: ms).length = 3 * ms.length + 1 + 1 + 1 := by
      rw [List.length_cons]
      omega
    have hget : ∀ f : Kv → KvM Publisher, (get >>= f) kv = f kv kv := fun _ => rfl
    have hestate : (EStateM.get : KvM Kv) = get := rfl
    rw [List.length_cons] at hu64
    have hsucc : satSuccU64 (TopicStore.currentTail kv topicId) =
        TopicStore.currentTail kv topicId + 1 := satSuccU64_of_lt (by unfold u64Max; omega)
    simp only [hlen, Publisher.steps, Publisher.step, List.map_cons, TopicStore.appendAll,
      TopicStore.nextSeq, bind_assoc, pure_bind, hestate, hget, hsucc, List.zip_cons_cons]
    refine bind_congr_ok fun _ kv₁ h₁ => bind_congr_ok fun _ kv₂ h₂ => ?_
    have htail : TopicStore.currentTail kv₂ topicId = TopicStore.currentTail kv topicId + 1 := by
      have hcount : Hoare.Ensures (putTopicSeq topicId (TopicStore.currentTail kv topicId + 1)) kv
          (fun _ t => TopicStore.currentTail t topicId = TopicStore.currentTail kv topicId + 1)
          (fun _ _ => True) := by
        simp only [putTopicSeq, ensures_kvWrite, TopicStore.currentTail, SortedMap.get_insert_self,
          Option.getD_some, implies_true, and_true]
      have hput : Hoare.Ensures (putMsg topicId (TopicStore.currentTail kv topicId + 1)
          (TopicStore.record m nowMs expireAtMs)) kv₁
          (fun _ t => TopicStore.currentTail t topicId = TopicStore.currentTail kv₁ topicId)
          (fun _ _ => True) := by
        simp only [putMsg, ensures_kvWrite, TopicStore.currentTail, implies_true, and_true]
      exact (hput.of_ok h₂).trans (hcount.of_ok h₁)
    rw [ih _ (by omega)]
    simp only [List.append_assoc, List.singleton_append]

structure Publishers where
  kv : Kv
  calls : Nat → Publisher

/-- The call `k` makes its next step. -/
def Publishers.step (topicId : Nat) (s : Publishers) (k : Nat) : Unit × Publishers :=
  match (s.calls k).step topicId s.kv with
  | .ok c kv => ((), ⟨kv, Function.update s.calls k c⟩)
  | .error _ kv => ((), ⟨kv, Function.update s.calls k { s.calls k with phase := .failed }⟩)

/-- The call `k` publishes the messages `batches k`. -/
def Publishers.begin (kv : Kv) (batches : Nat → List MessageRecord) : Publishers :=
  ⟨kv, fun k => ⟨batches k, .start, []⟩⟩

def Publishers.tail (topicId : Nat) (s : Publishers) : Nat := TopicStore.currentTail s.kv topicId

/-- Everything a step of the call `k` can do. -/
inductive PublishStep (topicId : Nat) (s : Publishers) (k : Nat) (t : Publishers) : Prop where
  | idle (hkv : t.kv = s.kv) (hcalls : t.calls = s.calls)
  | read (hphase : (s.calls k).phase = .start) (hpending : (s.calls k).pending ≠ [])
      (hkv : t.kv = s.kv)
      (hcalls : t.calls = Function.update s.calls k
        { s.calls k with phase := .read (s.tail topicId) })
  | count (n : Nat) (hphase : (s.calls k).phase = .read n) (hpending : (s.calls k).pending ≠ [])
      (htail : t.tail topicId = n + 1) (hmsg : t.kv.msg = s.kv.msg)
      (hcalls : t.calls = Function.update s.calls k { s.calls k with phase := .counted (n + 1) })
  | put (q : Nat) (m : MessageRecord) (ms : List MessageRecord)
      (hphase : (s.calls k).phase = .counted q) (hpending : (s.calls k).pending = m :: ms)
      (htail : t.tail topicId = s.tail topicId)
      (hmsg : t.kv.msg = s.kv.msg.insert ⟨topicId, q⟩ m)
      (hcalls : t.calls = Function.update s.calls k
        ⟨ms, .start, (s.calls k).returned ++ [(q, m)]⟩)
  | fail (hpending : (s.calls k).pending ≠ []) (htail : t.tail topicId = s.tail topicId)
      (hmsg : t.kv.msg = s.kv.msg)
      (hcalls : t.calls = Function.update s.calls k { s.calls k with phase := .failed })

theorem publishStep (topicId : Nat) (s : Publishers) (k : Nat)
    (hroom : ∀ n, (s.calls k).phase = .read n → (s.calls k).pending ≠ [] → n < u64Max) :
    PublishStep topicId s k (s.step topicId k).2 := by
  unfold Publishers.step
  rcases hc : s.calls k with ⟨pending, phase, returned⟩
  have hsame : Function.update s.calls k ⟨pending, phase, returned⟩ = s.calls := by
    rw [← hc]
    exact Function.update_eq_self k s.calls
  cases pending with
  | nil => cases phase <;> exact .idle rfl hsame
  | cons m ms =>
    have hne : (s.calls k).pending ≠ [] := by
      rw [hc]
      exact List.cons_ne_nil m ms
    cases phase with
    | start => exact .read (by rw [hc]) hne rfl (by rw [hc]; rfl)
    | read n =>
      have hsucc : satSuccU64 n = n + 1 := satSuccU64_of_lt (hroom n (by rw [hc]) hne)
      cases hok : s.kv.ok s.kv.writes with
      | true =>
        simp only [Publisher.step, bind, EStateM.bind, putTopicSeq, kvWrite, hok, if_true, hsucc]
        refine .count n (by rw [hc]) hne ?_ rfl (by rw [hc]; rfl)
        change ((s.kv.topicSeq.insert topicId (n + 1)).get topicId).getD 0 = n + 1
        rw [SortedMap.get_insert_self]
        rfl
      | false =>
        simp only [Publisher.step, bind, EStateM.bind, putTopicSeq, kvWrite, hok]
        exact .fail hne rfl rfl (by rw [hc]; rfl)
    | counted q =>
      cases hok : s.kv.ok s.kv.writes with
      | true =>
        simp only [Publisher.step, bind, EStateM.bind, putMsg, kvWrite, hok, if_true]
        exact .put q m ms (by rw [hc]) (by rw [hc]) rfl rfl (by rw [hc]; rfl)
      | false =>
        simp only [Publisher.step, bind, EStateM.bind, putMsg, kvWrite, hok]
        exact .fail hne rfl rfl (by rw [hc]; rfl)
    | failed => exact .idle rfl hsame

/-- The seqs the call has taken, whether or not their rows are written. -/
def Publisher.assigned (c : Publisher) : List Nat :=
  c.returned.map Prod.fst ++
    match c.phase with
    | .counted q => [q]
    | _ => []

/-- No two calls are between the read and the write of the counter. -/
def Exclusive (s : Publishers) : Prop :=
  ∀ k k' n n', (s.calls k).phase = .read n → (s.calls k').phase = .read n' → k = k'

/-- Every returned seq is returned once, and its row holds its message. -/
structure Lossless (topicId : Nat) (s : Publishers) : Prop where
  nodup : ∀ k, ((s.calls k).returned.map Prod.fst).Nodup
  disjoint : ∀ k k' q, q ∈ (s.calls k).returned.map Prod.fst →
    q ∈ (s.calls k').returned.map Prod.fst → k = k'
  rows : ∀ k, ∀ p ∈ (s.calls k).returned, s.kv.msg.get ⟨topicId, p.1⟩ = some p.2

section Steps

variable {topicId k : Nat} {s t : Publishers}

theorem PublishStep.other (hst : PublishStep topicId s k t) {j : Nat} (hj : j ≠ k) :
    t.calls j = s.calls j := by
  cases hst with
  | idle _ hcalls => rw [hcalls]
  | read _ _ _ hcalls => rw [hcalls, Function.update_of_ne hj]
  | count _ _ _ _ _ hcalls => rw [hcalls, Function.update_of_ne hj]
  | put _ _ _ _ _ _ _ hcalls => rw [hcalls, Function.update_of_ne hj]
  | fail _ _ _ hcalls => rw [hcalls, Function.update_of_ne hj]

/-- The invariant while the calls exclude each other. -/
structure Serial (topicId : Nat) (s : Publishers) : Prop where
  fresh : ∀ k n, (s.calls k).phase = .read n → n = s.tail topicId
  bound : ∀ k, ∀ q ∈ (s.calls k).assigned, q ≤ s.tail topicId
  nodup : ∀ k, (s.calls k).assigned.Nodup
  disjoint : ∀ k k' q, q ∈ (s.calls k).assigned → q ∈ (s.calls k').assigned → k = k'
  rows : ∀ k, ∀ p ∈ (s.calls k).returned, s.kv.msg.get ⟨topicId, p.1⟩ = some p.2

theorem serial_begin (kv : Kv) (batches : Nat → List MessageRecord) :
    Serial topicId (.begin kv batches) where
  fresh k n h := by cases h
  bound k q h := by cases h
  nodup k := List.nodup_nil
  disjoint k k' q h := by cases h
  rows k p h := by cases h

theorem mem_assigned {c : Publisher} {q : Nat} :
    q ∈ c.assigned ↔ q ∈ c.returned.map Prod.fst ∨ c.phase = .counted q := by
  unfold Publisher.assigned
  cases hp : c.phase with
  | counted q' =>
    have heq : q = q' ↔ q' = q := eq_comm
    simp [heq]
  | _ => simp

theorem Serial.quiet (h : Serial topicId s) (htail : t.tail topicId = s.tail topicId)
    (hmsg : t.kv.msg = s.kv.msg) (hret : ∀ j, (t.calls j).returned = (s.calls j).returned)
    (hasg : ∀ j, (t.calls j).assigned = (s.calls j).assigned ∨
      (t.calls j).assigned = (s.calls j).returned.map Prod.fst)
    (hread : ∀ j n, (t.calls j).phase = .read n → n = s.tail topicId) : Serial topicId t := by
  have hsub : ∀ j q, q ∈ (t.calls j).assigned → q ∈ (s.calls j).assigned := by
    intro j q hq
    rcases hasg j with he | he
    · rwa [he] at hq
    · rw [he] at hq
      exact mem_assigned.mpr (Or.inl hq)
  refine ⟨fun j n hj => ?_, fun j q hq => ?_, fun j => ?_, fun j j' q hq hq' => ?_, fun j p hp => ?_⟩
  · rw [htail]
    exact hread j n hj
  · rw [htail]
    exact h.bound j q (hsub j q hq)
  · rcases hasg j with he | he
    · rw [he]
      exact h.nodup j
    · rw [he]
      exact (List.nodup_append.mp (h.nodup j)).1
  · exact h.disjoint j j' q (hsub j q hq) (hsub j' q hq')
  · rw [hmsg]
    rw [hret] at hp
    exact h.rows j p hp

theorem Serial.step (h : Serial topicId s) (hex : Exclusive s) (hst : PublishStep topicId s k t) :
    Serial topicId t := by
  cases hst with
  | idle hkv hcalls =>
    have htail : t.tail topicId = s.tail topicId := by rw [Publishers.tail, hkv]; rfl
    refine h.quiet htail (by rw [hkv]) (fun j => by rw [hcalls]) (fun j => Or.inl (by rw [hcalls])) ?_
    intro j n hj
    rw [hcalls] at hj
    exact h.fresh j n hj
  | read hphase _ hkv hcalls =>
    have htail : t.tail topicId = s.tail topicId := by rw [Publishers.tail, hkv]; rfl
    refine h.quiet htail (by rw [hkv]) (fun j => ?_) (fun j => Or.inl ?_) fun j n hj => ?_
    · rw [hcalls]
      by_cases hj : j = k
      · subst hj
        rw [Function.update_self]
      · rw [Function.update_of_ne hj]
    · rw [hcalls]
      by_cases hj : j = k
      · subst hj
        rw [Function.update_self]
        simp only [Publisher.assigned, hphase]
      · rw [Function.update_of_ne hj]
    · rw [hcalls] at hj
      by_cases hk : j = k
      · subst hk
        rw [Function.update_self] at hj
        cases hj
        rfl
      · rw [Function.update_of_ne hk] at hj
        exact h.fresh j n hj
  | fail _ htail hmsg hcalls =>
    refine h.quiet htail hmsg (fun j => ?_) (fun j => ?_) fun j n hj => ?_
    · rw [hcalls]
      by_cases hj : j = k
      · subst hj
        rw [Function.update_self]
      · rw [Function.update_of_ne hj]
    · rw [hcalls]
      by_cases hj : j = k
      · subst hj
        rw [Function.update_self]
        right
        simp only [Publisher.assigned, List.append_nil]
      · left
        rw [Function.update_of_ne hj]
    · rw [hcalls] at hj
      by_cases hk : j = k
      · subst hk
        rw [Function.update_self] at hj
        cases hj
      · rw [Function.update_of_ne hk] at hj
        exact h.fresh j n hj
  | count n hphase _ htail hmsg hcalls =>
    have hn : n = s.tail topicId := h.fresh k n hphase
    have hself : (t.calls k).assigned = (s.calls k).assigned ++ [n + 1] := by
      rw [hcalls, Function.update_self]
      simp only [Publisher.assigned, hphase, List.append_nil]
    have hother : ∀ j ≠ k, t.calls j = s.calls j := by
      intro j hj
      rw [hcalls, Function.update_of_ne hj]
    have hnew : ∀ j, n + 1 ∉ (s.calls j).assigned := by
      intro j hj
      have hle := h.bound j (n + 1) hj
      omega
    have hmem : ∀ j q, q ∈ (t.calls j).assigned →
        q ∈ (s.calls j).assigned ∨ j = k ∧ q = n + 1 := by
      intro j q hq
      by_cases hj : j = k
      · subst hj
        rw [hself, List.mem_append, List.mem_singleton] at hq
        exact hq.imp id fun he => ⟨rfl, he⟩
      · rw [hother j hj] at hq
        exact Or.inl hq
    refine ⟨fun j m hj => ?_, fun j q hq => ?_, fun j => ?_, fun j j' q hq hq' => ?_,
      fun j p hp => ?_⟩
    · by_cases hk : j = k
      · subst hk
        rw [hcalls, Function.update_self] at hj
        cases hj
      · rw [hother j hk] at hj
        exact absurd (hex j k m n hj hphase) hk
    · rw [htail]
      rcases hmem j q hq with hq | ⟨_, hq⟩
      · have hle := h.bound j q hq
        omega
      · omega
    · by_cases hj : j = k
      · subst hj
        rw [hself]
        exact List.nodup_append.mpr ⟨h.nodup j, List.nodup_singleton _, fun a ha b hb he =>
          hnew j (by rw [List.mem_singleton.mp hb] at he; exact he ▸ ha)⟩
      · rw [hother j hj]
        exact h.nodup j
    · rcases hmem j q hq with hq | ⟨hj, hq⟩
      · rcases hmem j' q hq' with hq' | ⟨_, he⟩
        · exact h.disjoint j j' q hq hq'
        · exact absurd (he ▸ hq) (hnew j)
      · rcases hmem j' q hq' with hq' | ⟨hj', _⟩
        · exact absurd (hq ▸ hq') (hnew j')
        · rw [hj, hj']
    · rw [hmsg]
      by_cases hj : j = k
      · subst hj
        rw [hcalls, Function.update_self] at hp
        exact h.rows j p hp
      · rw [hother j hj] at hp
        exact h.rows j p hp
  | put q m ms hphase _ htail hmsg hcalls =>
    have hasg : ∀ j, (t.calls j).assigned = (s.calls j).assigned := by
      intro j
      rw [hcalls]
      by_cases hj : j = k
      · subst hj
        rw [Function.update_self]
        simp only [Publisher.assigned, hphase, List.map_append, List.map_cons, List.map_nil,
          List.append_nil]
      · rw [Function.update_of_ne hj]
    refine ⟨fun j n hj => ?_, fun j q' hq => ?_, fun j => ?_, fun j j' q' hq hq' => ?_,
      fun j p hp => ?_⟩
    · rw [htail]
      rw [hcalls] at hj
      by_cases hk : j = k
      · subst hk
        rw [Function.update_self] at hj
        cases hj
      · rw [Function.update_of_ne hk] at hj
        exact h.fresh j n hj
    · rw [htail]
      rw [hasg] at hq
      exact h.bound j q' hq
    · rw [hasg]
      exact h.nodup j
    · rw [hasg] at hq hq'
      exact h.disjoint j j' q' hq hq'
    · rw [hmsg]
      rw [hcalls] at hp
      have hq : q ∈ (s.calls k).assigned := mem_assigned.mpr (Or.inr hphase)
      by_cases hj : j = k
      · subst hj
        rw [Function.update_self] at hp
        rcases List.mem_append.mp hp with hp | hp
        · have hne : p.1 ≠ q := by
            intro he
            have hnd := h.nodup j
            simp only [Publisher.assigned, hphase] at hnd
            exact (List.nodup_append.mp hnd).2.2 p.1 (List.mem_map_of_mem hp) q
              (List.mem_singleton_self q) he
          rw [SortedMap.get_insert_ne _ _ (by simpa using hne)]
          exact h.rows j p hp
        · rw [List.mem_singleton.mp hp]
          exact SortedMap.get_insert_self ..
      · rw [Function.update_of_ne hj] at hp
        have hne : p.1 ≠ q := by
          intro he
          have hp' : q ∈ (s.calls j).assigned :=
            mem_assigned.mpr (Or.inl (he ▸ List.mem_map_of_mem hp))
          exact hj (h.disjoint j k q hp' hq)
        rw [SortedMap.get_insert_ne _ _ (by simpa using hne)]
        exact h.rows j p hp

/-- Two calls have taken the same seq, or a call has failed. -/
def Spoiled (s : Publishers) : Prop :=
  (∃ k k' q, k ≠ k' ∧ q ∈ (s.calls k).assigned ∧ q ∈ (s.calls k').assigned) ∨
    ∃ k, (s.calls k).phase = .failed

/-- What a call has read may be behind the counter, but then the seqs in between
were taken by other calls. -/
def Tracked (topicId : Nat) (s : Publishers) : Prop :=
  ∀ k n, (s.calls k).phase = .read n → n ≤ s.tail topicId ∧
    ∀ v, n < v → v ≤ s.tail topicId → ∃ k' ≠ k, v ∈ (s.calls k').assigned

/-- Some call is about to write a counter value that is, or will be, too low. -/
def Overlapping (topicId : Nat) (s : Publishers) : Prop :=
  (∃ k k' n n', k ≠ k' ∧ (s.calls k).phase = .read n ∧ (s.calls k').phase = .read n') ∨
    ∃ k n, (s.calls k).phase = .read n ∧ n < s.tail topicId

theorem PublishStep.assigned_of (hst : PublishStep topicId s k t) (hf : ¬ Spoiled t) {j q : Nat}
    (hq : q ∈ (s.calls j).assigned) : q ∈ (t.calls j).assigned := by
  cases hst with
  | idle _ hcalls =>
    rw [hcalls]
    exact hq
  | read hphase _ _ hcalls =>
    rw [hcalls]
    by_cases hj : j = k
    · subst hj
      rw [Function.update_self]
      simpa only [Publisher.assigned, hphase] using hq
    · rw [Function.update_of_ne hj]
      exact hq
  | count n hphase _ _ _ hcalls =>
    rw [hcalls]
    by_cases hj : j = k
    · subst hj
      rw [Function.update_self]
      simp only [Publisher.assigned, hphase, List.append_nil] at hq
      exact List.mem_append_left _ hq
    · rw [Function.update_of_ne hj]
      exact hq
  | put q' m ms hphase _ _ _ hcalls =>
    rw [hcalls]
    by_cases hj : j = k
    · subst hj
      rw [Function.update_self]
      simpa only [Publisher.assigned, hphase, List.map_append, List.map_cons, List.map_nil,
        List.append_nil] using hq
    · rw [Function.update_of_ne hj]
      exact hq
  | fail _ _ _ hcalls =>
    refine absurd (Or.inr ⟨k, ?_⟩) hf
    rw [hcalls, Function.update_self]

theorem Spoiled.step (h : Spoiled s) (hst : PublishStep topicId s k t) : Spoiled t := by
  by_contra hf
  rcases h with ⟨j, j', q, hne, hq, hq'⟩ | ⟨j, hj⟩
  · exact hf (Or.inl ⟨j, j', q, hne, hst.assigned_of hf hq, hst.assigned_of hf hq'⟩)
  · refine hf (Or.inr ⟨j, ?_⟩)
    cases hst with
    | idle _ hcalls =>
      rw [hcalls]
      exact hj
    | read hphase _ _ hcalls =>
      rw [hcalls, Function.update_of_ne fun he => by rw [← he, hj] at hphase; cases hphase]
      exact hj
    | count n hphase _ _ _ hcalls =>
      rw [hcalls, Function.update_of_ne fun he => by rw [← he, hj] at hphase; cases hphase]
      exact hj
    | put q m ms hphase _ _ _ hcalls =>
      rw [hcalls, Function.update_of_ne fun he => by rw [← he, hj] at hphase; cases hphase]
      exact hj
    | fail _ _ _ hcalls =>
      rw [hcalls]
      by_cases he : j = k
      · rw [he, Function.update_self]
      · rw [Function.update_of_ne he]
        exact hj

/-- Unless it spoils the run, a step writes the counter only at its current value. -/
theorem PublishStep.count_fresh (h : Tracked topicId s) (hst : PublishStep topicId s k t)
    (hf : ¬ Spoiled t) {n : Nat} (hphase : (s.calls k).phase = .read n)
    (hcalls : t.calls = Function.update s.calls k { s.calls k with phase := .counted (n + 1) }) :
    n = s.tail topicId := by
  obtain ⟨hle, htaken⟩ := h k n hphase
  by_contra hne
  have hlt : n < s.tail topicId := lt_of_le_of_ne hle hne
  obtain ⟨k', hk', hq⟩ := htaken (n + 1) (Nat.lt_succ_self n) hlt
  refine hf (Or.inl ⟨k', k, n + 1, hk', hst.assigned_of hf hq, ?_⟩)
  rw [hcalls, Function.update_self]
  exact mem_assigned.mpr (Or.inr rfl)

theorem Tracked.step (h : Tracked topicId s) (hst : PublishStep topicId s k t)
    (hf : ¬ Spoiled t) : Tracked topicId t := by
  -- a call that is reading in `t` and did not just read was reading in `s`
  have hold : ∀ {j n}, (s.calls j).phase = .read n → t.tail topicId = s.tail topicId →
      n ≤ t.tail topicId ∧ ∀ v, n < v → v ≤ t.tail topicId →
        ∃ k' ≠ j, v ∈ (t.calls k').assigned := by
    intro j n hj htail
    obtain ⟨hle, htaken⟩ := h j n hj
    rw [htail]
    refine ⟨hle, fun v hlo hhi => ?_⟩
    obtain ⟨k', hk', hv⟩ := htaken v hlo hhi
    exact ⟨k', hk', hst.assigned_of hf hv⟩
  intro j n hj
  cases hst with
  | idle hkv hcalls =>
    have htail : t.tail topicId = s.tail topicId := by rw [Publishers.tail, hkv]; rfl
    rw [hcalls] at hj
    exact hold hj htail
  | read hphase _ hkv hcalls =>
    have htail : t.tail topicId = s.tail topicId := by rw [Publishers.tail, hkv]; rfl
    rw [hcalls] at hj
    by_cases hk : j = k
    · subst hk
      rw [Function.update_self] at hj
      cases hj
      rw [htail]
      exact ⟨le_rfl, fun v hlo hhi => absurd (lt_of_lt_of_le hlo hhi) (lt_irrefl _)⟩
    · rw [Function.update_of_ne hk] at hj
      exact hold hj htail
  | count n' hphase hpending htail hmsg hcalls =>
    have hst' : PublishStep topicId s k t := .count n' hphase hpending htail hmsg hcalls
    have hfresh := hst'.count_fresh h hf hphase hcalls
    rw [hcalls] at hj
    have hk : j ≠ k := by
      rintro rfl
      rw [Function.update_self] at hj
      cases hj
    rw [Function.update_of_ne hk] at hj
    obtain ⟨hle, htaken⟩ := h j n hj
    rw [htail]
    refine ⟨by omega, fun v hlo hhi => ?_⟩
    by_cases hv : v = n' + 1
    · refine ⟨k, Ne.symm hk, ?_⟩
      rw [hcalls, Function.update_self, hv]
      exact mem_assigned.mpr (Or.inr rfl)
    · obtain ⟨k', hk', hv'⟩ := htaken v hlo (by omega)
      exact ⟨k', hk', hst'.assigned_of hf hv'⟩
  | put q m ms hphase hpending htail hmsg hcalls =>
    rw [hcalls] at hj
    have hk : j ≠ k := by
      rintro rfl
      rw [Function.update_self] at hj
      cases hj
    rw [Function.update_of_ne hk] at hj
    exact hold hj htail
  | fail _ _ _ hcalls =>
    refine absurd (Or.inr ⟨k, ?_⟩) hf
    rw [hcalls, Function.update_self]

theorem Overlapping.step (ho : Overlapping topicId s) (h : Tracked topicId s)
    (hst : PublishStep topicId s k t) (hf : ¬ Spoiled t) : Overlapping topicId t := by
  have hkeep : ∀ {j n}, (s.calls j).phase = .read n → j ≠ k → (t.calls j).phase = .read n := by
    intro j n hj hk
    rw [hst.other hk]
    exact hj
  by_cases hcount : ∃ n, (s.calls k).phase = .read n
  · obtain ⟨n, hphase⟩ := hcount
    have hcase : t.calls = s.calls ∧ t.kv = s.kv ∨ n = s.tail topicId ∧ t.tail topicId = n + 1 := by
      cases hst with
      | idle hkv hcalls => exact Or.inl ⟨hcalls, hkv⟩
      | read hp _ _ _ =>
        rw [hphase] at hp
        cases hp
      | count n' hp hpending htail hmsg hcalls =>
        rw [hphase] at hp
        cases hp
        have hst' : PublishStep topicId s k t := .count n hphase hpending htail hmsg hcalls
        exact Or.inr ⟨hst'.count_fresh h hf hphase hcalls, htail⟩
      | put q m ms hp _ _ _ _ =>
        rw [hphase] at hp
        cases hp
      | fail _ _ _ hcalls =>
        refine absurd (Or.inr ⟨k, ?_⟩) hf
        rw [hcalls, Function.update_self]
    rcases hcase with ⟨hcalls, hkv⟩ | ⟨hn, htail⟩
    · have hte : t.tail topicId = s.tail topicId := by rw [Publishers.tail, hkv]; rfl
      unfold Overlapping at ho ⊢
      rw [hcalls, hte]
      exact ho
    · right
      rcases ho with ⟨j, j', m, m', hne, hj, hj'⟩ | ⟨j, m, hj, hlt⟩
      · by_cases hk : j = k
        · have hk' : j' ≠ k := fun he => hne (hk.trans he.symm)
          have hle := (h j' m' hj').1
          exact ⟨j', m', hkeep hj' hk', by omega⟩
        · have hle := (h j m hj).1
          exact ⟨j, m, hkeep hj hk, by omega⟩
      · have hk : j ≠ k := by
          rintro rfl
          rw [hphase] at hj
          cases hj
          omega
        exact ⟨j, m, hkeep hj hk, by omega⟩
  · have hne : ∀ {j n}, (s.calls j).phase = .read n → j ≠ k := by
      rintro j n hj rfl
      exact hcount ⟨n, hj⟩
    have htail : t.tail topicId = s.tail topicId := by
      cases hst with
      | idle hkv _ => rw [Publishers.tail, hkv]; rfl
      | read _ _ hkv _ => rw [Publishers.tail, hkv]; rfl
      | count n hp _ _ _ _ => exact absurd ⟨n, hp⟩ hcount
      | put _ _ _ _ _ htail _ _ => exact htail
      | fail _ htail _ _ => exact htail
    rcases ho with ⟨j, j', m, m', hjj, hj, hj'⟩ | ⟨j, m, hj, hlt⟩
    · exact Or.inl ⟨j, j', m, m', hjj, hkeep hj (hne hj), hkeep hj' (hne hj')⟩
    · exact Or.inr ⟨j, m, hkeep hj (hne hj), by rw [htail]; exact hlt⟩

/-- The messages of the call that the counter has still to count. -/
def Publisher.uncounted (c : Publisher) : Nat :=
  match c.phase with
  | .counted _ => c.pending.length - 1
  | .failed => 0
  | _ => c.pending.length

/-- The counter, and what the calls have read of it, has room for all that is uncounted. -/
structure Roomy (topicId : Nat) (callers : Finset Nat) (s : Publishers) : Prop where
  idle : ∀ k ∉ callers, (s.calls k).pending = []
  tail : s.tail topicId + ∑ k ∈ callers, (s.calls k).uncounted < 2 ^ 64
  read : ∀ k n, (s.calls k).phase = .read n → n + ∑ k ∈ callers, (s.calls k).uncounted < 2 ^ 64

variable {callers : Finset Nat}

theorem Roomy.lt_max (h : Roomy topicId callers s) {n : Nat} (hphase : (s.calls k).phase = .read n)
    (hpending : (s.calls k).pending ≠ []) : n < u64Max := by
  have hmem : k ∈ callers := by
    by_contra hk
    exact hpending (h.idle k hk)
  have hone : 0 < (s.calls k).uncounted := by
    simp only [Publisher.uncounted, hphase]
    exact List.length_pos_of_ne_nil hpending
  have hle : (s.calls k).uncounted ≤ ∑ j ∈ callers, (s.calls j).uncounted :=
    Finset.single_le_sum (f := fun j => (s.calls j).uncounted) (fun _ _ => Nat.zero_le _) hmem
  have hlt := h.read k n hphase
  unfold u64Max
  omega

theorem Roomy.publishStep (h : Roomy topicId callers s) (k : Nat) :
    PublishStep topicId s k (s.step topicId k).2 :=
  OpenPubusb.publishStep topicId s k fun _ hphase hpending => h.lt_max hphase hpending

theorem PublishStep.uncounted_le (hst : PublishStep topicId s k t) :
    (t.calls k).uncounted ≤ (s.calls k).uncounted := by
  cases hst with
  | idle _ hcalls => rw [hcalls]
  | read hphase _ _ hcalls => simp [hcalls, Publisher.uncounted, hphase]
  | count n hphase _ _ _ hcalls => simp [hcalls, Publisher.uncounted, hphase]
  | put q m ms hphase hpending _ _ hcalls =>
    simp [hcalls, Publisher.uncounted, hphase, hpending]
  | fail _ _ _ hcalls => simp [hcalls, Publisher.uncounted]

theorem Roomy.step (h : Roomy topicId callers s) (hst : PublishStep topicId s k t) :
    Roomy topicId callers t := by
  by_cases hpending : (s.calls k).pending = []
  · cases hst with
    | idle hkv hcalls =>
      have htail : t.tail topicId = s.tail topicId := by rw [Publishers.tail, hkv]; rfl
      refine ⟨?_, ?_, ?_⟩
      · rw [hcalls]
        exact h.idle
      · rw [hcalls, htail]
        exact h.tail
      · rw [hcalls]
        exact h.read
    | read _ hne => exact absurd hpending hne
    | count _ _ hne => exact absurd hpending hne
    | put _ _ _ _ hcons =>
      rw [hpending] at hcons
      cases hcons
    | fail hne => exact absurd hpending hne
  have hmem : k ∈ callers := by
    by_contra hk
    exact hpending (h.idle k hk)
  have hle : ∀ j ∈ callers, (t.calls j).uncounted ≤ (s.calls j).uncounted := by
    intro j _
    by_cases hj : j = k
    · rw [hj]
      exact hst.uncounted_le
    · rw [hst.other hj]
  have hsum : ∑ j ∈ callers, (t.calls j).uncounted ≤ ∑ j ∈ callers, (s.calls j).uncounted :=
    Finset.sum_le_sum hle
  have hroom := h.tail
  refine ⟨fun j hj => ?_, ?_, fun j n hn => ?_⟩
  · have hne : j ≠ k := by
      rintro rfl
      exact hj hmem
    rw [hst.other hne]
    exact h.idle j hj
  · cases hst with
    | idle hkv =>
      have htail : t.tail topicId = s.tail topicId := by rw [Publishers.tail, hkv]; rfl
      omega
    | read _ _ hkv =>
      have htail : t.tail topicId = s.tail topicId := by rw [Publishers.tail, hkv]; rfl
      omega
    | count n hphase _ htail _ hcalls =>
      have hlt : (t.calls k).uncounted < (s.calls k).uncounted := by
        simp only [hcalls, Function.update_self, Publisher.uncounted, hphase]
        have hpos := List.length_pos_of_ne_nil hpending
        omega
      have hsum' := Finset.sum_lt_sum hle ⟨k, hmem, hlt⟩
      have hread := h.read k n hphase
      omega
    | put _ _ _ _ _ htail => omega
    | fail _ htail => omega
  · by_cases hj : j = k
    · subst hj
      cases hst with
      | idle _ hcalls =>
        rw [hcalls] at hn
        have hread := h.read j n hn
        omega
      | read _ _ _ hcalls =>
        rw [hcalls, Function.update_self] at hn
        cases hn
        omega
      | count _ _ _ _ _ hcalls =>
        rw [hcalls, Function.update_self] at hn
        cases hn
      | put _ _ _ _ _ _ _ hcalls =>
        rw [hcalls, Function.update_self] at hn
        cases hn
      | fail _ _ _ hcalls =>
        rw [hcalls, Function.update_self] at hn
        cases hn
    · rw [hst.other hj] at hn
      have hread := h.read j n hn
      omega

theorem Roomy.final (h : Roomy topicId callers s) (schedule : List Nat) :
    Roomy topicId callers (Run.final (Publishers.step topicId) s schedule) :=
  Run.inv_final (P := Roomy topicId callers) (C := fun _ => True)
    (fun _ k h _ => h.step (h.publishStep k)) h fun _ _ => trivial

theorem Roomy.inv_final (h : Roomy topicId callers s) {P : Publishers → Prop}
    (hstep : ∀ s k, P s → PublishStep topicId s k (s.step topicId k).2 → P (s.step topicId k).2)
    (hs : P s) (schedule : List Nat) : P (Run.final (Publishers.step topicId) s schedule) := by
  have hinv := Run.inv_final (P := fun s => Roomy topicId callers s ∧ P s) (C := fun _ => True)
    (fun s k hs _ => ⟨hs.1.step (hs.1.publishStep k), hstep s k hs.2 (hs.1.publishStep k)⟩)
    ⟨h, hs⟩ fun (_ : Run.Transition Publishers Nat Unit) (_ : _ ∈ Run.trace _ s schedule) => trivial
  exact hinv.2

theorem calls_final_of_not_mem (s : Publishers) {schedule : List Nat} (hk : k ∉ schedule) :
    (Run.final (Publishers.step topicId) s schedule).calls k = s.calls k := by
  induction schedule generalizing s with
  | nil => rfl
  | cons j js ih =>
    rw [List.mem_cons, not_or] at hk
    have hstep : (s.step topicId j).2.calls k = s.calls k := by
      unfold Publishers.step
      cases (s.calls j).step topicId s.kv <;> exact Function.update_of_ne hk.1 _ _
    exact (ih _ hk.2).trans hstep

/-- A call that has returned is not in the middle of a message. -/
def Settled (s : Publishers) : Prop :=
  ∀ k, (s.calls k).pending = [] → (s.calls k).phase = .start

theorem Settled.step (h : Settled s) (hst : PublishStep topicId s k t) : Settled t := by
  intro j hj
  by_cases hk : j = k
  · subst hk
    cases hst with
    | idle _ hcalls =>
      rw [hcalls] at hj ⊢
      exact h j hj
    | read _ hpending _ hcalls =>
      rw [hcalls, Function.update_self] at hj
      exact absurd hj hpending
    | count n hphase _ _ _ hcalls =>
      rw [hcalls, Function.update_self] at hj
      have hs := h j hj
      rw [hphase] at hs
      cases hs
    | put _ _ _ _ _ _ _ hcalls =>
      rw [hcalls, Function.update_self]
    | fail hpending _ _ hcalls =>
      rw [hcalls, Function.update_self] at hj
      exact absurd hj hpending
  · rw [hst.other hk] at hj ⊢
    exact h j hj

end Steps

theorem Serial.lossless {topicId : Nat} {s : Publishers} (h : Serial topicId s) :
    Lossless topicId s := by
  have hmem : ∀ k q, q ∈ (s.calls k).returned.map Prod.fst → q ∈ (s.calls k).assigned :=
    fun k q hq => mem_assigned.mpr (Or.inl hq)
  refine ⟨fun k => ?_, fun k k' q hq hq' => ?_, h.rows⟩
  · exact (List.nodup_append.mp (h.nodup k)).1
  · exact h.disjoint k k' q (hmem k q hq) (hmem k' q hq')

theorem Spoiled.not_lossless {topicId : Nat} {s : Publishers} (h : Spoiled s) (hset : Settled s)
    (hdone : ∀ k, (s.calls k).pending = []) : ¬ Lossless topicId s := by
  have hasg : ∀ k, (s.calls k).assigned = (s.calls k).returned.map Prod.fst := by
    intro k
    simp only [Publisher.assigned, hset k (hdone k), List.append_nil]
  intro hl
  rcases h with ⟨k, k', q, hne, hq, hq'⟩ | ⟨k, hk⟩
  · rw [hasg] at hq hq'
    exact hne (hl.disjoint k k' q hq hq')
  · rw [hset k (hdone k)] at hk
    cases hk

/-- Once two calls overlap, the run is spoiled by the time that all have returned. -/
theorem spoiled_of_overlap {topicId : Nat} {kv : Kv} {batches : Nat → List MessageRecord}
    {schedule : List Nat} {tr : Run.Transition Publishers Nat Unit} {callers : Finset Nat}
    (hroom : Roomy topicId callers (.begin kv batches))
    (hdone : ∀ k, ((Run.final (Publishers.step topicId) (.begin kv batches) schedule).calls
      k).pending = [])
    (hsettled : Settled (Run.final (Publishers.step topicId) (.begin kv batches) schedule))
    (htr : tr ∈ Run.trace (Publishers.step topicId) (.begin kv batches) schedule)
    (hover : ¬ Exclusive tr.post) :
    Spoiled (Run.final (Publishers.step topicId) (.begin kv batches) schedule) := by
  obtain ⟨l, l', hl'⟩ := List.append_of_mem htr
  obtain ⟨is₁, k, is₂, hsched, _, hk, _⟩ := Run.trace_eq_append hl'
  have hpost : tr.post = Run.final (Publishers.step topicId) (.begin kv batches) (is₁ ++ [k]) := by
    rw [Run.final_append, hk]
    rfl
  have hfinal : Run.final (Publishers.step topicId) (.begin kv batches) schedule =
      Run.final (Publishers.step topicId) tr.post is₂ := by
    rw [hpost, ← Run.final_append, hsched, List.append_assoc, List.singleton_append]
  have htracked : Spoiled tr.post ∨ Tracked topicId tr.post := by
    rw [hpost]
    refine hroom.inv_final (P := fun s => Spoiled s ∨ Tracked topicId s) (fun s k h hst => ?_)
      (Or.inr fun _ _ h => (by cases h)) _
    by_cases hf : Spoiled (s.step topicId k).2
    · exact Or.inl hf
    · rcases h with h | h
      · exact absurd (h.step hst) hf
      · exact Or.inr (h.step hst hf)
  have hdoomed : Spoiled tr.post ∨ Tracked topicId tr.post ∧ Overlapping topicId tr.post := by
    refine htracked.imp id fun h => ⟨h, Or.inl ?_⟩
    simp only [Exclusive, not_forall] at hover
    obtain ⟨j, j', n, n', hj, hj', hne⟩ := hover
    exact ⟨j, j', n, n', hne, hj, hj'⟩
  have hend : Spoiled (Run.final (Publishers.step topicId) tr.post is₂) ∨
      Tracked topicId (Run.final (Publishers.step topicId) tr.post is₂) ∧
        Overlapping topicId (Run.final (Publishers.step topicId) tr.post is₂) := by
    have hroom' : Roomy topicId callers tr.post := hpost ▸ hroom.final _
    refine hroom'.inv_final (P := fun s => Spoiled s ∨ Tracked topicId s ∧ Overlapping topicId s)
      (fun s k h hst => ?_) hdoomed _
    by_cases hf : Spoiled (s.step topicId k).2
    · exact Or.inl hf
    · rcases h with h | ⟨h, ho⟩
      · exact absurd (h.step hst) hf
      · exact Or.inr ⟨h.step hst hf, ho.step h hst hf⟩
  rw [← hfinal] at hend
  have hstart : ∀ k n, ((Run.final (Publishers.step topicId) (.begin kv batches) schedule).calls
      k).phase ≠ .read n := by
    intro k n hk
    rw [hsettled k (hdone k)] at hk
    cases hk
  rcases hend with hend | ⟨_, ⟨j, _, n, _, _, hj, _⟩ | ⟨j, n, hj, _⟩⟩
  · exact hend
  · exact absurd hj (hstart j n)
  · exact absurd hj (hstart j n)

/-- For calls whose messages the counter has room for. -/
theorem publishes_lossless_iff (topicId : Nat) (kv : Kv) (batches : Nat → List MessageRecord)
    (schedule : List Nat)
    (hdone : ∀ k, ((Run.final (Publishers.step topicId) (.begin kv batches) schedule).calls
      k).pending = [])
    (hu64 : TopicStore.currentTail kv topicId + ∑ k ∈ schedule.toFinset, (batches k).length <
      2 ^ 64) :
    Lossless topicId (Run.final (Publishers.step topicId) (.begin kv batches) schedule) ↔
      ∀ tr ∈ Run.trace (Publishers.step topicId) (.begin kv batches) schedule,
        Exclusive tr.post := by
  have hroom : Roomy topicId schedule.toFinset (.begin kv batches) := by
    refine ⟨fun k hk => ?_, hu64, fun _ _ h => (by cases h)⟩
    rw [← calls_final_of_not_mem _ fun h => hk (List.mem_toFinset.mpr h)]
    exact hdone k
  have hsettled : Settled (Run.final (Publishers.step topicId) (.begin kv batches) schedule) :=
    hroom.inv_final (fun _ _ h hst => h.step hst) (fun _ _ => rfl) _
  constructor
  · intro hl tr htr
    by_contra hover
    exact (spoiled_of_overlap hroom hdone hsettled htr hover).not_lossless hsettled hdone hl
  · intro hex
    have hinv := Run.inv_final
      (P := fun s => Roomy topicId schedule.toFinset s ∧ Serial topicId s ∧ Exclusive s)
      (C := fun tr => Exclusive tr.post)
      (fun s k h hc => ⟨h.1.step (h.1.publishStep k), h.2.1.step h.2.2 (h.1.publishStep k), hc⟩)
      ⟨hroom, serial_begin kv batches, fun _ _ _ _ h => (by cases h)⟩ hex
    exact hinv.2.1.lossless

/-- Two calls with one message each. -/
def twoBatches : Nat → List MessageRecord
  | 0 => [⟨0, "", ∅, [1], 1000⟩]
  | 1 => [⟨0, "", ∅, [2], 1000⟩]
  | _ => []

theorem twoBatches_returned (schedule : List Nat) (hmem : ∀ k ∈ schedule, k < 2)
    (h0 : ((Run.final (Publishers.step 1) (.begin .empty twoBatches) schedule).calls 0).pending = [])
    (h1 : ((Run.final (Publishers.step 1) (.begin .empty twoBatches) schedule).calls 1).pending = [])
    (k : Nat) :
    ((Run.final (Publishers.step 1) (.begin .empty twoBatches) schedule).calls k).pending = [] := by
  match k with
  | 0 => exact h0
  | 1 => exact h1
  | k + 2 =>
    have hk : k + 2 ∉ schedule := by
      intro hk
      have hlt := hmem _ hk
      omega
    rw [calls_final_of_not_mem _ hk]
    rfl

theorem publishes_lossless_iff_serial :
    Lossless 1 (Run.final (Publishers.step 1) (.begin .empty twoBatches) [0, 0, 0, 1, 1, 1]) ↔
      ∀ tr ∈ Run.trace (Publishers.step 1) (.begin .empty twoBatches) [0, 0, 0, 1, 1, 1],
        Exclusive tr.post :=
  publishes_lossless_iff 1 .empty twoBatches _
    (twoBatches_returned _ (by decide) (by decide +kernel) (by decide +kernel)) (by decide +kernel)

/-- Both calls read the counter before either writes it, and both return seq `1`. -/
theorem publishes_collide :
    (∀ k, ((Run.final (Publishers.step 1) (.begin .empty twoBatches) [0, 1, 0, 0, 1, 1]).calls
      k).pending = []) ∧
    ¬ Lossless 1 (Run.final (Publishers.step 1) (.begin .empty twoBatches) [0, 1, 0, 0, 1, 1]) := by
  refine ⟨twoBatches_returned _ (by decide) (by decide +kernel) (by decide +kernel), fun h => ?_⟩
  have h01 := h.disjoint 0 1 1 (by decide +kernel) (by decide +kernel)
  cases h01

end OpenPubusb
