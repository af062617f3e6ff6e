import OpenPubusb.LeaseScan

/-! When `lease_next` fails on a store that takes every write: it reaches a message that
is ready, and whose dead-letter topic cannot take it. -/

namespace OpenPubusb

open Hoare

section Readiness

variable (a : LeaseArgs) (s : Engine) (c : CursorRecord)

/-- The message is not done, passes the filter, is under no lease, and its retry policy
does not hold it back. -/
def ready (row : Nat × MessageRecord) : Bool :=
  !c.isDone row.1 && accepts a.filter row.2.attributes && !s.heldAt a.nowMs a.subId row.1 &&
    !(reclaimPolicy s.kv a.subId).backsOff a.nowMs (s.lastDelivery a.subId row.1)

def rejected (row : Nat × MessageRecord) : Bool :=
  !c.isDone row.1 && !accepts a.filter row.2.attributes

end Readiness

section Refusal

variable {a : LeaseArgs} {s t : Engine} {c : CursorRecord}

theorem judge_of_not_ready {row : Nat × MessageRecord} (h : ready a s c row = false) :
    judge a s c row.1 row.2 = if rejected a c row then .filtered else .skip := by
  unfold ready at h
  unfold judge rejected
  cases hd : c.isDone row.1
  · cases hacc : accepts a.filter row.2.attributes
    · simp
    · cases hheld : s.heldAt a.nowMs a.subId row.1
      · simp only [hd, hacc, hheld, Bool.not_false, Bool.true_and, Bool.not_eq_false'] at h
        simp [h]
      · simp
  · simp

theorem judge_of_ready {row : Nat × MessageRecord} (h : ready a s c row = true) :
    judge a s c row.1 row.2 = redeliver s.kv (reclaimPolicy s.kv a.subId) row.2
      (s.priorAttempts a.subId row.1) := by
  simp only [ready, Bool.and_eq_true, Bool.not_eq_true'] at h
  obtain ⟨⟨⟨hd, hacc⟩, hheld⟩, hback⟩ := h
  simp [judge, hd, hacc, hheld, hback]

/-- The message is ready and due for a dead-letter topic that cannot take it. -/
def Undeliverable (a : LeaseArgs) (s : Engine) (c : CursorRecord) (row : Nat × MessageRecord) :
    Prop :=
  ready a s c row = true ∧
    shouldDeadLetter (s.priorAttempts a.subId row.1) (reclaimPolicy s.kv a.subId).deadLetter = true ∧
    (reclaimPolicy s.kv a.subId).Refuses s.kv row.2 (s.priorAttempts a.subId row.1)

theorem judge_refuses_iff {row : Nat × MessageRecord} :
    (∃ e, judge a s c row.1 row.2 = .refuse e) ↔ Undeliverable a s c row := by
  unfold Undeliverable
  cases hr : ready a s c row with
  | false =>
    rw [judge_of_not_ready hr]
    split_ifs <;> simp
  | true =>
    rw [judge_of_ready hr]
    unfold redeliver
    cases hsd : shouldDeadLetter (s.priorAttempts a.subId row.1)
      (reclaimPolicy s.kv a.subId).deadLetter with
    | false => simp
    | true =>
      obtain ⟨name, hname⟩ : ∃ name, (reclaimPolicy s.kv a.subId).deadLetter.topic = some name := by
        simp only [shouldDeadLetter, Bool.and_eq_true] at hsd
        exact Option.isSome_iff_exists.mp hsd.1.1
      simp only [ReclaimPolicy.Refuses, hname, Option.getD_some, Option.some.injEq,
        exists_eq_left', if_true, true_and]
      cases hg : TopicStore.get s.kv name with
      | error e => cases e <;> simp
      | ok dlq =>
        cases hv : TopicStore.validateBatch [deadLetterCopy row.2 (reclaimPolicy s.kv a.subId)
          (s.priorAttempts a.subId row.1)] with
        | error e => simp
        | ok u => simp

/-- Of the messages that the call reaches none is undeliverable. -/
def NoneUndeliverable (a : LeaseArgs) (s : Engine) (c : CursorRecord) : Prop :=
  ∀ v ∈ planned a s c, ¬ Undeliverable a s c (v.seq, v.message)

theorem noneUndeliverable_iff :
    NoneUndeliverable a s c ↔ ∀ v ∈ planned a s c, ∀ e, v.verdict ≠ .refuse e := by
  refine forall₂_congr fun v hv => ?_
  rw [← judge_refuses_iff, (mem_planned hv).2, not_exists]

theorem ScanExact.healthy {vs : List Judged} {sc sc' : Scan} (h : ScanExact a vs s sc t sc')
    (hh : s.kv.Healthy) : t.kv.Healthy := by
  obtain ⟨dlv, hkv⟩ := h.kv
  obtain ⟨_, _, hrows⟩ := appendRows_kept s.kv (vs.filterMap (Judged.copy s.kv a))
  rw [hkv, hrows]
  exact hh

theorem Broke.refused {seq : Nat} {m : MessageRecord} {v : Verdict} {e : Error}
    (hok : s.kv.Healthy) (h : Broke a seq m s t e v) : t = s ∧ ∃ e', v = .refuse e' := by
  have hok : ∀ n, s.kv.ok n = true := hok
  cases v with
  | refuse e' => exact ⟨h.2, e', rfl⟩
  | lease n => simp [Broke, hok] at h
  | forward dlq n => simp [Broke, hok] at h
  | skip => exact h.elim
  | filtered => exact h.elim

theorem ScanBroke.refused {vs : List Judged} {sc : Scan} {e : Error} (hh : s.kv.Healthy)
    (h : ScanBroke a vs s sc e t) : ∃ v ∈ vs, ∃ e', v.verdict = .refuse e' := by
  obtain ⟨pre, v, post, u, sc₁, rfl, hscan, hbroke⟩ := h
  exact ⟨v, by simp, (hbroke.refused (hscan.healthy hh)).2⟩

theorem leaseNext_ok_iff (hh : s.kv.Healthy) {subId : Nat} (topicId : Nat) {maxMessages : Int}
    (hmax : 0 < maxMessages) (nowMs secs : Int) (hc : s.kv.cursors.get subId = some c) :
    (∃ out t, leaseNext subId topicId maxMessages nowMs secs s = .ok out t) ↔
      NoneUndeliverable (leaseArgs s subId topicId maxMessages nowMs secs) s c := by
  have hexact := ensures_leaseNext_exact topicId nowMs secs hmax hc
  have hh' : (s.cacheFilter subId).kv.Healthy := hh
  rw [noneUndeliverable_iff]
  cases hr : leaseNext subId topicId maxMessages nowMs secs s with
  | ok out t =>
    obtain ⟨u, sc, hscan, _⟩ := hexact.of_ok hr
    exact ⟨fun _ => hscan.taken, fun _ => ⟨out, t, rfl⟩⟩
  | error e t =>
    refine ⟨fun hok => ?_, fun h => ?_⟩
    · obtain ⟨out, u, hok⟩ := hok
      cases hok
    rcases hexact.of_error hr with hbroke | ⟨u, sc, hscan, _, hbad, _⟩
    · obtain ⟨v, hv, e', he'⟩ := hbroke.refused hh'
      exact absurd he' (h v hv e')
    · rw [hscan.healthy hh'] at hbad
      cases hbad

theorem ensures_leaseNext_refused (hwf : s.WellFormed) {subId topicId : Nat}
    (ht : ∀ r, s.kv.subs.get subId = some r → r.topicId = topicId) (maxMessages nowMs secs : Int) :
    Ensures (leaseNext subId topicId maxMessages nowMs secs) s
      (fun out t => LeaseDone (leaseArgs s subId topicId maxMessages nowMs secs) s t out)
      (fun _ t => LeaseFailed (leaseArgs s subId topicId maxMessages nowMs secs) s t ∧
        ∀ c, s.kv.cursors.get subId = some c →
          ¬ NoneUndeliverable (leaseArgs s subId topicId maxMessages nowMs secs) s c) := by
  have h := ensures_leaseNext hwf ht maxMessages nowMs secs
  unfold Ensures
  cases hr : leaseNext subId topicId maxMessages nowMs secs s with
  | ok out t => exact h.of_ok hr
  | error e t =>
    refine ⟨h.of_error hr, fun c hc hnone => ?_⟩
    by_cases hmax : 0 < maxMessages
    · obtain ⟨out, u, hok⟩ := (leaseNext_ok_iff hwf.healthy topicId hmax nowMs secs hc).mpr hnone
      rw [hr] at hok
      cases hok
    · rw [leaseNext, if_pos (not_lt.mp hmax)] at hr
      cases hr

end Refusal

end OpenPubusb
