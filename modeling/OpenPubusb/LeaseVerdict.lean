import OpenPubusb.EngineSpec

/-! What `lease_next` decides about one message of the log, and what it then
writes. The decision is a function of the state before the call; the writes may
fail at any point. -/

namespace OpenPubusb

open Hoare

/-- The decision of the scan about one message. -/
inductive Verdict where
  /-- It is finished, or leased, or held back by the retry policy. -/
  | skip
  | filtered
  | forward (dlq : TopicRecord) (attempts : Nat)
  /-- It is due for a dead-letter topic that cannot take it. -/
  | refuse (e : Error)
  | lease (attempts : Nat)

/-- What is known of the last delivery of a message: its lease, or else its row. -/
def Engine.lastDelivery (s : Engine) (subId seq : Nat) : Option DeliveryRecord :=
  ((s.leases.get subId seq).map Lease.record).or (s.kv.dlv.get ⟨subId, seq⟩)

def Engine.priorAttempts (s : Engine) (subId seq : Nat) : Nat :=
  ((s.lastDelivery subId seq).map DeliveryRecord.attempts).getD 0

def Engine.heldAt (s : Engine) (nowMs : Int) (subId seq : Nat) : Bool :=
  (s.leases.get subId seq).any (fun l => nowMs < l.deadlineMs)

def ReclaimPolicy.backsOff (policy : ReclaimPolicy) (nowMs : Int) (r : Option DeliveryRecord) :
    Bool :=
  policy.retryPolicyExplicit && r.any (fun r => nowMs < policy.eligibleAt r.deadlineMs r.attempts)

/-- The decision about a message that is ready, after `n` deliveries. -/
def redeliver (kv : Kv) (policy : ReclaimPolicy) (m : MessageRecord) (n : Nat) : Verdict :=
  if shouldDeadLetter n policy.deadLetter then
    match TopicStore.get kv (policy.deadLetter.topic.getD "") with
    | .error (.notFound _) => .lease n
    | .error e => .refuse e
    | .ok dlq =>
      match TopicStore.validateBatch [deadLetterCopy m policy n] with
      | .ok _ => .forward dlq n
      | .error e => .refuse e
  else .lease n

def judge (a : LeaseArgs) (s : Engine) (c : CursorRecord) (seq : Nat) (m : MessageRecord) :
    Verdict :=
  if c.isDone seq then .skip
  else if ¬ accepts a.filter m.attributes then .filtered
  else if s.heldAt a.nowMs a.subId seq then .skip
  else if (reclaimPolicy s.kv a.subId).backsOff a.nowMs (s.lastDelivery a.subId seq) then .skip
  else redeliver s.kv (reclaimPolicy s.kv a.subId) m (s.priorAttempts a.subId seq)

def copyRow (kv : Kv) (a : LeaseArgs) (m : MessageRecord) (dlq : TopicRecord) (n : Nat) :
    MessageRecord :=
  TopicStore.record (deadLetterCopy m (reclaimPolicy kv a.subId) n) a.nowMs
    (TopicStore.expireAt a.nowMs (topicRetentionSecs dlq))

def Kv.countUp (kv : Kv) (topicId : Nat) : Kv :=
  { kv with topicSeq := kv.topicSeq.insert topicId (TopicStore.currentTail kv topicId + 1) }

def Kv.appendRow (kv : Kv) (topicId : Nat) (r : MessageRecord) : Kv :=
  { kv.countUp topicId with
    msg := kv.msg.insert ⟨topicId, TopicStore.currentTail kv topicId + 1⟩ r }

/-- The lease table after the message is leased again, or taken off: `l` is its new
lease. The rest of the engine but the store is the same. -/
structure Replaced (a : LeaseArgs) (seq : Nat) (l : Option Lease) (s t : Engine) : Prop where
  leases : ∀ i q, t.leases.get i q = if i = a.subId ∧ q = seq then l else s.leases.get i q
  coherent : s.leases.Coherent → t.leases.Coherent
  streams : t.streams = s.streams
  filters : t.filters = s.filters

def newLease (a : LeaseArgs) (seq n : Nat) : Lease :=
  ⟨a.subId, seq, a.deadlineMs, satSuccU32 n, satSuccU32 n⟩

def deadLetterEntry (kv : Kv) (a : LeaseArgs) (seq : Nat) (dlq : TopicRecord) : DeadLettered :=
  ⟨a.subId, seq, dlq.id, TopicStore.currentTail kv dlq.id + 1⟩

/-- What the body of the scan leaves when it goes through. -/
def Decided (a : LeaseArgs) (seq : Nat) (m : MessageRecord) (s : Engine) (sc : Scan) (t : Engine)
    (sc' : Scan) : Verdict → Prop
  | .skip => t = s ∧ sc' = sc
  | .filtered => t = s ∧ sc' = sc.markDone seq
  | .lease n => s.kv.ok s.kv.writes = true ∧
      t.kv = { s.kv.tick with dlv := s.kv.dlv.insert ⟨a.subId, seq⟩ (newLease a seq n).record } ∧
      Replaced a seq (some (newLease a seq n)) s t ∧ t.deadLettered = s.deadLettered ∧
      sc' = { sc with out := sc.out ++ [deliver a seq m (satSuccU32 n)] }
  | .forward dlq n => (∀ k < 3, s.kv.ok (s.kv.writes + k) = true) ∧
      t.kv = { s.kv.appendRow dlq.id (copyRow s.kv a m dlq n) with
        dlv := s.kv.dlv.erase ⟨a.subId, seq⟩
        writes := s.kv.writes + 3 } ∧
      Replaced a seq none s t ∧
      t.deadLettered = s.deadLettered ++ [deadLetterEntry s.kv a seq dlq] ∧
      sc' = sc.markDone seq
  | .refuse _ => False

def Broke (a : LeaseArgs) (seq : Nat) (m : MessageRecord) (s t : Engine) (e : Error) :
    Verdict → Prop
  | .lease n => s.kv.ok s.kv.writes = false ∧ t.kv = s.kv.tick ∧
      Replaced a seq (some (newLease a seq n)) s t ∧ t.deadLettered = s.deadLettered
  | .forward dlq n =>
      (s.kv.ok s.kv.writes = false ∧ t = { s with kv := s.kv.tick }) ∨
      (s.kv.ok s.kv.writes = true ∧ s.kv.ok (s.kv.writes + 1) = false ∧
        t = { s with kv := { s.kv.countUp dlq.id with writes := s.kv.writes + 2 } }) ∨
      (s.kv.ok s.kv.writes = true ∧ s.kv.ok (s.kv.writes + 1) = true ∧
        s.kv.ok (s.kv.writes + 2) = false ∧
        t.kv = { s.kv.appendRow dlq.id (copyRow s.kv a m dlq n) with writes := s.kv.writes + 3 } ∧
        Replaced a seq none s t ∧
        t.deadLettered = s.deadLettered ++ [deadLetterEntry s.kv a seq dlq])
  | .refuse e' => e = e' ∧ t = s
  | _ => False

section Body

variable {a : LeaseArgs} {seq : Nat} {m : MessageRecord} {s : Engine} {sc : Scan}

theorem ensures_grant_decided (leases : LeaseTable)
    (hl : ∀ i q, ¬ (i = a.subId ∧ q = seq) → leases.get i q = s.leases.get i q)
    (hc : s.leases.Coherent → leases.Coherent) (n : Nat) :
    Ensures (grant a sc seq m n) { s with leases := leases }
      (fun sc' t => Decided a seq m s sc t sc' (.lease n))
      (fun e t => Broke a seq m s t e (.lease n)) := by
  have hrep : ∀ kv, Replaced a seq (some (newLease a seq n)) s
      { s with
        leases := leases.insert a.subId seq a.deadlineMs (satSuccU32 n) (satSuccU32 n)
        kv := kv } := by
    intro kv
    refine ⟨fun i q => ?_, fun h => (hc h).insert .., rfl, rfl⟩
    simp only [LeaseTable.get_insert]
    split_ifs with hk
    · rfl
    · exact hl i q hk
  simp only [grant, setLeases, ensures_bind, ensures_get, ensures_modify, ensures_onKv, putDlv,
    ensures_kvWrite, ensures_pure]
  exact ⟨fun hok => ⟨hok, rfl, hrep _, rfl, rfl⟩, fun hbad => ⟨hbad, rfl, hrep _, rfl⟩⟩

theorem ensures_append_one {topicId : Nat} {p : PublishMessage} {nowMs retentionSecs : Int}
    {kv : Kv} {Q : List Nat → Kv → Prop} {E : Error → Kv → Prop}
    (hv : TopicStore.validateBatch [p] = .ok ()) :
    Ensures (TopicStore.append topicId [p] nowMs retentionSecs) kv Q E ↔
      (kv.ok kv.writes = true →
        (kv.ok (kv.writes + 1) = true →
          Q [TopicStore.currentTail kv topicId + 1]
            { kv.appendRow topicId (TopicStore.record p nowMs
              (TopicStore.expireAt nowMs retentionSecs)) with writes := kv.writes + 2 }) ∧
        (kv.ok (kv.writes + 1) = false → E (.internal "write failed")
          { kv.countUp topicId with writes := kv.writes + 2 })) ∧
      (kv.ok kv.writes = false → E (.internal "write failed") kv.tick) := by
  simp only [TopicStore.append, hv, liftResult, TopicStore.appendAll, TopicStore.nextSeq,
    putTopicSeq, putMsg, ensures_bind, ensures_pure, ensures_estateGet, ensures_kvWrite]
  rfl

theorem ensures_append_refused {topicId : Nat} {p : PublishMessage} {nowMs retentionSecs : Int}
    {kv : Kv} {Q : List Nat → Kv → Prop} {E : Error → Kv → Prop} {e : Error}
    (hv : TopicStore.validateBatch [p] = .error e) (h : E e kv) :
    Ensures (TopicStore.append topicId [p] nowMs retentionSecs) kv Q E := by
  simp only [TopicStore.append, hv, liftResult, ensures_bind, ensures_throw]
  exact h

/-- The state after the copy of the message was appended. -/
def Engine.copied (s : Engine) (a : LeaseArgs) (seq : Nat) (m : MessageRecord) (dlq : TopicRecord)
    (n : Nat) : Engine :=
  { s with
    kv := { s.kv.appendRow dlq.id (copyRow s.kv a m dlq n) with writes := s.kv.writes + 2 }
    deadLettered := s.deadLettered ++ [deadLetterEntry s.kv a seq dlq] }

theorem ensures_tryDeadLetter (n : Nat) :
    Ensures (tryDeadLetter a seq m (reclaimPolicy s.kv a.subId) n) s
      (fun b t =>
        (b = false ∧ t = s ∧ redeliver s.kv (reclaimPolicy s.kv a.subId) m n = .lease n) ∨
        ∃ dlq, b = true ∧ redeliver s.kv (reclaimPolicy s.kv a.subId) m n = .forward dlq n ∧
          s.kv.ok s.kv.writes = true ∧ s.kv.ok (s.kv.writes + 1) = true ∧
          t = s.copied a seq m dlq n)
      (fun e t => Broke a seq m s t e (redeliver s.kv (reclaimPolicy s.kv a.subId) m n)) := by
  simp only [tryDeadLetter, ensures_ite, ensures_pure]
  refine ⟨fun hsd => ?_, fun hsd => Or.inl ⟨trivial, trivial, by rw [redeliver, if_neg hsd]⟩⟩
  simp only [forwardToDeadLetterTopic, ensures_bind, ensures_get, redeliver, if_pos hsd]
  cases hg : TopicStore.get s.kv ((reclaimPolicy s.kv a.subId).deadLetter.topic.getD "") with
  | error e =>
    cases e with
    | notFound e => exact Or.inl ⟨rfl, rfl, rfl⟩
    | _ => exact ⟨rfl, rfl⟩
  | ok dlq =>
    simp only [ensures_bind, ensures_onKv, ensures_modify, ensures_pure]
    cases hv : TopicStore.validateBatch [deadLetterCopy m (reclaimPolicy s.kv a.subId) n] with
    | error e => exact ensures_append_refused hv ⟨rfl, rfl⟩
    | ok u =>
      refine (ensures_append_one hv).mpr ⟨fun h0 => ⟨fun h1 => ?_, fun h1 => ?_⟩, fun h0 => ?_⟩
      · exact Or.inr ⟨dlq, trivial, rfl, h0, h1, rfl⟩
      · exact Or.inr (Or.inl ⟨h0, h1, rfl⟩)
      · exact Or.inl ⟨h0, rfl⟩

theorem ensures_reclaim_decided {r : DeliveryRecord} {live : Bool}
    (hlive : live = false → s.leases.get a.subId seq = none) {v : Verdict}
    (hv : v = if (reclaimPolicy s.kv a.subId).backsOff a.nowMs (some r) then .skip
      else redeliver s.kv (reclaimPolicy s.kv a.subId) m r.attempts) :
    Ensures (reclaim a sc seq m r.deadlineMs r.attempts live) s
      (fun sc' t => Decided a seq m s sc t sc' v) (fun e t => Broke a seq m s t e v) := by
  subst hv
  have hgate : (reclaimPolicy s.kv a.subId).backsOff a.nowMs (some r) = true ↔
      ((reclaimPolicy s.kv a.subId).retryPolicyExplicit = true ∧
        a.nowMs < (reclaimPolicy s.kv a.subId).eligibleAt r.deadlineMs r.attempts) := by
    simp [ReclaimPolicy.backsOff]
  simp only [reclaim, ensures_bind, ensures_get, ensures_ite, ensures_pure]
  refine ⟨fun hg => ?_, fun hg => ?_⟩
  · rw [if_pos (hgate.mpr hg)]
    exact ⟨rfl, rfl⟩
  rw [if_neg fun h => hg (hgate.mp h)]
  refine (ensures_tryDeadLetter r.attempts).mono (fun b t hb => ?_) (fun _ _ h => h)
  rcases hb with ⟨rfl, rfl, hv⟩ | ⟨dlq, rfl, hv, h0, h1, rfl⟩
  · rw [hv]
    simp only [settle, Bool.false_eq_true, if_false]
    refine ⟨fun _ => ?_, fun _ => ?_⟩
    · refine ensures_grant_decided _ (fun i q hk => ?_) (fun h => h.remove ..) r.attempts
      rw [LeaseTable.get_remove, if_neg hk]
    · exact ensures_grant_decided _ (fun _ _ _ => rfl) (fun h => h) r.attempts
  · rw [hv]
    have key : ∀ leases : LeaseTable,
        (∀ i q, leases.get i q = if i = a.subId ∧ q = seq then none else s.leases.get i q) →
        (s.leases.Coherent → leases.Coherent) →
        Ensures (settle a sc seq m r.attempts true)
          { s.copied a seq m dlq r.attempts with leases := leases }
          (fun sc' t => Decided a seq m s sc t sc' (.forward dlq r.attempts))
          (fun e t => Broke a seq m s t e (.forward dlq r.attempts)) := by
      intro leases hget hcoh
      simp only [settle, if_true, ensures_bind, ensures_onKv, deleteDlv, ensures_kvWrite,
        ensures_pure]
      refine ⟨fun h2 => ⟨fun k hk => ?_, rfl, ⟨hget, hcoh, rfl, rfl⟩, rfl, rfl⟩, fun h2 => ?_⟩
      · have hcases : k = 0 ∨ k = 1 ∨ k = 2 := by omega
        rcases hcases with rfl | rfl | rfl
        · exact h0
        · exact h1
        · exact h2
      · exact Or.inr (Or.inr ⟨h0, h1, h2, rfl, ⟨hget, hcoh, rfl, rfl⟩, rfl⟩)
    simp only [removeLease, ensures_modify]
    refine ⟨fun _ => ?_, fun hl => ?_⟩
    · exact key _ (fun i q => LeaseTable.get_remove ..) (fun h => h.remove ..)
    · refine key s.leases (fun i q => ?_) (fun h => h)
      split_ifs with hk
      · rw [hk.1, hk.2, hlive (by simpa using hl)]
      · rfl

theorem ensures_leaseOne_decided :
    Ensures (leaseOne a sc seq m) s
      (fun sc' t => Decided a seq m s sc t sc' (judge a s sc.cursor seq m))
      (fun e t => Broke a seq m s t e (judge a s sc.cursor seq m)) := by
  simp only [leaseOne, ensures_ite, ensures_pure, judge]
  refine ⟨fun hd => ?_, fun hd => ⟨fun hrej => ?_, fun hacc => ?_⟩⟩
  · rw [if_pos hd]
    exact ⟨rfl, rfl⟩
  · rw [if_neg hd, if_pos hrej]
    exact ⟨rfl, rfl⟩
  rw [if_neg hd, if_neg hacc]
  simp only [ensures_bind, ensures_get]
  cases hl : s.leases.get a.subId seq with
  | some l =>
    have hlast : s.lastDelivery a.subId seq = some l.record := by
      simp only [Engine.lastDelivery, hl, Option.map_some, Option.some_or]
    have hprior : s.priorAttempts a.subId seq = l.attempts := by
      simp only [Engine.priorAttempts, hlast, Option.map_some, Option.getD_some, Lease.record]
    have hheld : s.heldAt a.nowMs a.subId seq = true ↔ a.nowMs < l.deadlineMs := by
      simp [Engine.heldAt, hl]
    simp only [ensures_ite, ensures_pure]
    refine ⟨fun hgt => ?_, fun hle => ?_⟩
    · rw [if_pos (hheld.mpr hgt)]
      exact ⟨rfl, rfl⟩
    · rw [if_neg fun h => hle (hheld.mp h), hlast, hprior]
      exact ensures_reclaim_decided (r := l.record) (fun h => by cases h) rfl
  | none =>
    have hheld : ¬ s.heldAt a.nowMs a.subId seq = true := by
      simp [Engine.heldAt, hl]
    rw [if_neg hheld]
    cases hr : s.kv.dlv.get ⟨a.subId, seq⟩ with
    | some r =>
      have hlast : s.lastDelivery a.subId seq = some r := by
        simp only [Engine.lastDelivery, hl, hr, Option.map_none, Option.none_or]
      have hprior : s.priorAttempts a.subId seq = r.attempts := by
        simp only [Engine.priorAttempts, hlast, Option.map_some, Option.getD_some]
      rw [hlast, hprior]
      exact ensures_reclaim_decided (fun _ => hl) rfl
    | none =>
      have hlast : s.lastDelivery a.subId seq = none := by
        simp only [Engine.lastDelivery, hl, hr, Option.map_none, Option.none_or]
      have hback : ¬ (reclaimPolicy s.kv a.subId).backsOff a.nowMs none = true := by
        simp [ReclaimPolicy.backsOff]
      have hfirst : redeliver s.kv (reclaimPolicy s.kv a.subId) m 0 = .lease 0 := by
        refine if_neg fun hsd => ?_
        simp only [shouldDeadLetter, Bool.and_eq_true, decide_eq_true_eq] at hsd
        omega
      rw [Engine.priorAttempts, hlast, if_neg hback, Option.map_none, Option.getD_none, hfirst]
      exact ensures_grant_decided _ (fun _ _ _ => rfl) (fun h => h) 0

end Body

end OpenPubusb
