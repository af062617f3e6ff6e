import OpenPubusb.AckIds
import OpenPubusb.LeaseFailures

/-! When a message that is ready again reaches a client: after a nack, and on a stream
whose leases have lapsed. -/

namespace OpenPubusb

open Hoare

section Service

variable {a : LeaseArgs} {s t : Engine} {c : CursorRecord} {sc sc' : Scan} {seq : Nat}

def Verdict.forwards : Verdict → Bool
  | .forward _ _ => true
  | _ => false

def endState {ε σ α : Type} : EStateM.Result ε σ α → σ
  | .ok _ t => t
  | .error _ t => t

/-- The call copies the message to the dead-letter topic, even if it fails later. -/
def SentOn (s : Engine) (r : EStateM.Result Error Engine (List Delivered)) (subId seq : Nat) :
    Prop :=
  ∃ added, (endState r).deadLettered = s.deadLettered ++ added ∧
    ∃ en ∈ added, en.subId = subId ∧ en.seq = seq

/-- The call hands the message to its caller, or sends it on to the dead-letter topic. -/
def Serves (s : Engine) (r : EStateM.Result Error Engine (List Delivered)) (subId seq : Nat) :
    Prop :=
  (∃ out t, r = .ok out t ∧ ∃ d ∈ out, d.seq = seq) ∨ SentOn s r subId seq

theorem ScanExact.mem_out {vs : List Judged} (h : ScanExact a vs s ⟨c, false, []⟩ t sc) :
    (∃ d ∈ sc.out, d.seq = seq) ↔ ∃ v ∈ vs, v.seq = seq ∧ v.verdict.leases = true := by
  rw [h.out, List.nil_append]
  constructor
  · rintro ⟨d, hd, rfl⟩
    obtain ⟨v, hv, hdel⟩ := List.mem_filterMap.mp hd
    unfold Judged.delivery at hdel
    cases hverdict : v.verdict with
    | lease n =>
      rw [hverdict, Option.some.injEq] at hdel
      exact ⟨v, hv, by rw [← hdel]; rfl, by rw [hverdict]; rfl⟩
    | _ =>
      rw [hverdict] at hdel
      cases hdel
  · rintro ⟨v, hv, rfl, hl⟩
    cases hverdict : v.verdict with
    | lease n =>
      refine ⟨deliver a v.seq v.message (satSuccU32 n), List.mem_filterMap.mpr ⟨v, hv, ?_⟩, rfl⟩
      rw [Judged.delivery, hverdict]
    | _ =>
      rw [hverdict] at hl
      cases hl

theorem ScanExact.mem_log {vs : List Judged} (h : ScanExact a vs s sc t sc') :
    (∃ added, t.deadLettered = s.deadLettered ++ added ∧
      ∃ en ∈ added, en.subId = a.subId ∧ en.seq = seq) ↔
      ∃ v ∈ vs, v.seq = seq ∧ v.verdict.forwards = true := by
  obtain ⟨added, hlog, hadded⟩ := h.log
  have hmem : (a.subId, seq) ∈ added.map (fun en => (en.subId, en.seq)) ↔
      ∃ v ∈ vs, v.seq = seq ∧ v.verdict.forwards = true := by
    rw [hadded, List.mem_filterMap]
    refine exists_congr fun v => and_congr_right fun _ => ?_
    unfold Judged.copy
    cases v.verdict <;> simp [Verdict.forwards]
  rw [← hmem, List.mem_map]
  constructor
  · rintro ⟨added', hlog', en, hen, hi, hq⟩
    rw [hlog, List.append_cancel_left_eq] at hlog'
    exact ⟨en, hlog' ▸ hen, by rw [hi, hq]⟩
  · rintro ⟨en, hen, heq⟩
    rw [Prod.mk.injEq] at heq
    exact ⟨added, hlog, en, hen, heq⟩

theorem served_ok {out : List Delivered} {subId : Nat} : Serves s (.ok out t) subId seq ↔
    (∃ d ∈ out, d.seq = seq) ∨ ∃ added, t.deadLettered = s.deadLettered ++ added ∧
      ∃ en ∈ added, en.subId = subId ∧ en.seq = seq := by
  refine or_congr_left ⟨?_, fun h => ⟨out, t, rfl, h⟩⟩
  rintro ⟨_, _, heq, h⟩
  cases heq
  exact h

theorem served_error {e : Error} {subId : Nat} : Serves s (.error e t) subId seq ↔
    ∃ added, t.deadLettered = s.deadLettered ++ added ∧
      ∃ en ∈ added, en.subId = subId ∧ en.seq = seq :=
  or_iff_right fun ⟨_, _, heq, _⟩ => nomatch heq

theorem LeaseExact.served_iff {out : List Delivered} (h : LeaseExact a s c out t) :
    Serves s (.ok out t) a.subId seq ↔ ∃ v ∈ planned a s c, v.seq = seq ∧
      (v.verdict.leases = true ∨ v.verdict.forwards = true) := by
  obtain ⟨u, sc, hscan, rfl, _, rfl⟩ := h
  have hlog : (u.withCursor a.subId sc).deadLettered = u.deadLettered := by
    unfold Engine.withCursor
    split_ifs <;> rfl
  rw [served_ok, hlog, hscan.mem_out, hscan.mem_log]
  simp only [and_or_left, exists_or]

/-- A call that fails on a healthy store has served what it forwarded before. -/
theorem LeaseBroke.served_iff {e : Error} (hh : s.kv.Healthy) (h : LeaseBroke a s c e t) :
    Serves s (.error e t) a.subId seq ↔ ∃ v ∈ planned a s c, v.seq = seq ∧
      v.verdict.forwards = true ∧
        ∀ w ∈ planned a s c, Undeliverable a s c (w.seq, w.message) → seq < w.seq := by
  rcases h with ⟨pre, x, post, u, sc, hvs, hscan, hbroke⟩ | ⟨u, sc, hscan, _, hbad, _⟩
  · have hascending := planned_ascending (a := a) (s := s) (c := c)
    have hund : ∀ w ∈ planned a s c, Undeliverable a s c (w.seq, w.message) ↔
        ∃ e', w.verdict = .refuse e' := by
      intro w hw
      rw [← judge_refuses_iff, (mem_planned hw).2]
    rw [hvs, List.pairwise_append, List.pairwise_cons] at hascending
    obtain ⟨_, ⟨hpost, _⟩, hpre⟩ := hascending
    have hrefused : t = u ∧ ∃ e', x.verdict = .refuse e' := by
      rcases hbroke.fails with ⟨e', he'⟩ | ⟨k, _, hk⟩
      · rw [he'] at hbroke
        exact ⟨hbroke.2, e', he'⟩
      · rw [hscan.healthy hh] at hk
        cases hk
    rw [served_error, hrefused.1, hscan.mem_log]
    constructor
    · rintro ⟨v, hv, rfl, hf⟩
      refine ⟨v, by rw [hvs]; exact List.mem_append_left _ hv, rfl, hf, fun w hw hu => ?_⟩
      obtain ⟨e', he'⟩ := (hund w hw).mp hu
      rw [hvs] at hw
      rcases List.mem_append.mp hw with hw | hw
      · exact absurd he' (hscan.taken w hw e')
      · exact hpre v hv w hw
    · rintro ⟨v, hv, rfl, hf, hbefore⟩
      have hx : x ∈ planned a s c := by
        rw [hvs]
        exact List.mem_append_right _ List.mem_cons_self
      have hlt := hbefore x hx ((hund x hx).mpr hrefused.2)
      rw [hvs] at hv
      rcases List.mem_append.mp hv with hv | hv
      · exact ⟨v, hv, rfl, hf⟩
      · rcases List.mem_cons.mp hv with rfl | hv
        · omega
        · have hgt := hpost v hv
          omega
  · rw [hscan.healthy hh] at hbad
    cases hbad

/-- What a call on a healthy store serves: the messages that it leases, if it meets no
undeliverable one, and those that it forwards before the first of these. -/
theorem leaseNext_serves_iff (hh : s.kv.Healthy) {subId : Nat} (topicId : Nat) {maxMessages : Int}
    (hmax : 0 < maxMessages) (nowMs secs : Int) (hc : s.kv.cursors.get subId = some c)
    (ha : a = leaseArgs s subId topicId maxMessages nowMs secs) :
    Serves s (leaseNext subId topicId maxMessages nowMs secs s) subId seq ↔
      ∃ v ∈ planned a s c, v.seq = seq ∧
        (v.verdict.leases = true ∧ NoneUndeliverable a s c ∨
          v.verdict.forwards = true ∧
            ∀ w ∈ planned a s c, Undeliverable a s c (w.seq, w.message) → seq < w.seq) := by
  subst ha
  have hexact := ensures_leaseNext_exact topicId nowMs secs hmax hc
  have hok := leaseNext_ok_iff hh topicId hmax nowMs secs hc
  have hh' : (s.cacheFilter subId).kv.Healthy := hh
  cases hr : leaseNext subId topicId maxMessages nowMs secs s with
  | ok out t =>
    have hnone := hok.mp ⟨out, t, hr⟩
    refine (hexact.of_ok hr).served_iff.trans ?_
    refine exists_congr fun v => and_congr_right fun _ => and_congr_right fun _ => or_congr ?_ ?_
    · exact (and_iff_left hnone).symm
    · exact (and_iff_left fun w hw hu => absurd hu (hnone w hw)).symm
  | error e t =>
    have hsome : ¬ NoneUndeliverable (leaseArgs s subId topicId maxMessages nowMs secs) s c := by
      intro hnone
      obtain ⟨out, t', h⟩ := hok.mpr hnone
      rw [hr] at h
      cases h
    refine ((hexact.of_error hr).served_iff hh').trans ?_
    refine exists_congr fun v => and_congr_right fun _ => and_congr_right fun _ => ?_
    exact (or_iff_right fun h => hsome h.2).symm

end Service

section Nack

variable {s t : Engine} {subId seq : Nat} {l : Lease} {nowMs : Int}

def Engine.nacked (s : Engine) (subId seq : Nat) (l : Lease) (nowMs : Int) : Engine :=
  { s with
    leases := s.leases.reschedule subId seq l nowMs
    kv := { s.kv.tick with
      dlv := s.kv.dlv.insert ⟨subId, seq⟩ ⟨nowMs, l.attempts, l.generation⟩ } }

theorem modifyAckDeadline_named (hh : s.kv.Healthy) (hcoh : s.leases.Coherent)
    (hl : s.leases.get subId seq = some l) {ackId : String}
    (hid : decodeAckId ackId = some (subId, seq, l.generation)) (secs : Int) :
    modifyAckDeadline subId [ackId] nowMs secs s =
      .ok () (s.nacked subId seq l (LeaseTable.extendedDeadline nowMs secs)) := by
  have hext : s.leases.extend ackId nowMs secs =
      (s.leases.reschedule subId seq l (LeaseTable.extendedDeadline nowMs secs),
        .applied { l with deadlineMs := LeaseTable.extendedDeadline nowMs secs }) := by
    simp [LeaseTable.extend, LeaseTable.resolveAck, hid, hl]
  have hseq : l.seq = seq := (hcoh.keyed hl).2
  have h : Ensures (modifyAckDeadline subId [ackId] nowMs secs) s
      (fun _ t => t = s.nacked subId seq l (LeaseTable.extendedDeadline nowMs secs))
      (fun _ _ => False) := by
    simp only [modifyAckDeadline, setLeases, ensures_bind, ensures_get, ensures_modify, hext,
      ensures_onKv, putDlv, ensures_kvWrite_healthy hh, hseq, ensures_pure]
    rfl
  cases hr : modifyAckDeadline subId [ackId] nowMs secs s with
  | ok u t => rw [h.of_ok hr]
  | error e t => exact (h.of_error hr).elim

theorem modifyAckDeadline_nack (hh : s.kv.Healthy) (hcoh : s.leases.Coherent)
    (hl : s.leases.get subId seq = some l) {ackId : String}
    (hid : decodeAckId ackId = some (subId, seq, l.generation)) {secs : Int} (hsecs : secs ≤ 0) :
    modifyAckDeadline subId [ackId] nowMs secs s = .ok () (s.nacked subId seq l nowMs) := by
  have hd : LeaseTable.extendedDeadline nowMs secs = nowMs := if_pos hsecs
  rw [modifyAckDeadline_named hh hcoh hl hid secs, hd]

theorem ready_nacked {a : LeaseArgs} {c : CursorRecord} {m : MessageRecord}
    (hnow : nowMs ≤ a.nowMs) :
    ready a (s.nacked a.subId seq l nowMs) c (seq, m) = true ↔
      c.isDone seq = false ∧ accepts a.filter m.attributes = true ∧
        ((reclaimPolicy s.kv a.subId).retryPolicyExplicit = true →
          (reclaimPolicy s.kv a.subId).eligibleAt nowMs l.attempts ≤ a.nowMs) := by
  have hl : (s.nacked a.subId seq l nowMs).leases.get a.subId seq =
      some { l with deadlineMs := nowMs } := by
    simp only [Engine.nacked, LeaseTable.get_reschedule, and_self, if_true]
  have hheld : (s.nacked a.subId seq l nowMs).heldAt a.nowMs a.subId seq = false := by
    simp only [Engine.heldAt, hl, Option.any_some, decide_eq_false_iff_not]
    omega
  have hlast : (s.nacked a.subId seq l nowMs).lastDelivery a.subId seq =
      some ⟨nowMs, l.attempts, l.generation⟩ := by
    rw [Engine.lastDelivery, hl]
    rfl
  have hpolicy : reclaimPolicy (s.nacked a.subId seq l nowMs).kv a.subId =
      reclaimPolicy s.kv a.subId := rfl
  simp only [ready, hheld, hlast, hpolicy, ReclaimPolicy.backsOff, Option.any_some]
  cases (reclaimPolicy s.kv a.subId).retryPolicyExplicit <;> simp [and_assoc]

/-- The messages of the log that are not done. -/
def undone (kv : Kv) (topicId : Nat) (c : CursorRecord) : Nat :=
  (scanPrefix kv.msg topicId).countP fun row => !c.isDone row.1

theorem mem_planned_of_undone {a : LeaseArgs} {c : CursorRecord} {m : MessageRecord}
    (hmax : undone s.kv a.topicId c ≤ a.maxMessages)
    (hm : s.kv.msg.get ⟨a.topicId, seq⟩ = some m) (hdone : c.isDone seq = false) :
    ⟨seq, m, judge a s c seq m⟩ ∈ planned a s c := by
  obtain ⟨pre, post, hrows⟩ := List.append_of_mem (mem_scanPrefix.mpr hm)
  rw [undone, hrows, List.countP_append, List.countP_cons_of_pos (by simp [hdone])] at hmax
  rw [planned, visits, hrows, judgeAll, List.map_append, List.map_cons]
  refine Budget.mem_visited ?_
  have hle : (pre.map fun row => (⟨row.1, row.2, judge a s c row.1 row.2⟩ : Judged)).countP
      (fun v => v.verdict.leases) ≤ pre.countP fun row => !c.isDone row.1 := by
    rw [List.countP_map]
    refine List.countP_mono_left fun row _ hleases => ?_
    by_contra hd
    rw [Bool.not_eq_true', Bool.not_eq_false] at hd
    simp [judge, hd, Verdict.leases] at hleases
  omega

theorem not_done_of_ready {a : LeaseArgs} {c : CursorRecord} {row : Nat × MessageRecord}
    (h : ready a s c row = true) : c.isDone row.1 = false := by
  simp only [ready, Bool.and_eq_true, Bool.not_eq_true'] at h
  exact h.1.1.1

theorem Verdict.acts_of_leases {v : Verdict} (h : v.leases = true) : v.acts = true := by
  cases v with
  | lease n => rfl
  | _ => cases h

theorem Verdict.acts_of_forwards {v : Verdict} (h : v.forwards = true) : v.acts = true := by
  cases v with
  | forward dlq n => rfl
  | _ => cases h

theorem ready_of_acts {a : LeaseArgs} {c : CursorRecord} {row : Nat × MessageRecord}
    (h : (judge a s c row.1 row.2).acts = true) : ready a s c row = true := by
  by_contra hr
  rw [judge_of_not_ready (by simpa using hr)] at h
  split_ifs at h <;> cases h

theorem forwards_eq {a : LeaseArgs} {c : CursorRecord} {row : Nat × MessageRecord}
    (h : ∀ e, judge a s c row.1 row.2 ≠ .refuse e) :
    (judge a s c row.1 row.2).forwards = deadLetters a s c row := by
  rw [judge_eq h]
  cases hl : leasable a s c row with
  | true =>
    simp only [leasable, Bool.and_eq_true, Bool.not_eq_true'] at hl
    rw [hl.2]
    rfl
  | false =>
    cases hd : deadLetters a s c row with
    | true =>
      obtain ⟨dlq, hdlq⟩ := deadLetterTopic_of_deadLetters hd
      simp [hdlq, Verdict.forwards]
    | false => cases rejected a c row <;> simp [Verdict.forwards]

/-- No undeliverable message keeps the call from serving this one: they all come later, and
this one is not leased but forwarded. -/
def Unhindered (a : LeaseArgs) (s : Engine) (c : CursorRecord) (row : Nat × MessageRecord) : Prop :=
  ∀ w ∈ planned a s c, Undeliverable a s c (w.seq, w.message) →
    row.1 < w.seq ∧ deadLetters a s c row = true

/-- A call that may lease every message that is not done serves one of them exactly when
it is ready and no undeliverable message is in the way. -/
theorem leaseNext_serves_ready_iff {a : LeaseArgs} {c : CursorRecord} (hh : s.kv.Healthy)
    (topicId : Nat) {maxMessages : Int} (nowMs secs : Int) (hc : s.kv.cursors.get subId = some c)
    (ha : a = leaseArgs s subId topicId maxMessages nowMs secs)
    (hmax : (undone s.kv topicId c : Int) ≤ maxMessages) :
    Serves s (leaseNext subId topicId maxMessages nowMs secs s) subId seq ↔
      ∃ m, s.kv.msg.get ⟨topicId, seq⟩ = some m ∧ ready a s c (seq, m) = true ∧
        Unhindered a s c (seq, m) := by
  have htopic : a.topicId = topicId := by rw [ha]; rfl
  have hmax' : undone s.kv a.topicId c ≤ a.maxMessages := by
    rw [ha]
    change undone s.kv topicId c ≤ maxMessages.toNat
    omega
  by_cases hpos : 0 < maxMessages
  · rw [leaseNext_serves_iff hh topicId hpos nowMs secs hc ha]
    constructor
    · rintro ⟨v, hv, rfl, hserved⟩
      obtain ⟨hm, hverdict⟩ := mem_planned hv
      rw [htopic] at hm
      rw [hverdict] at hserved
      have hacts : (judge a s c v.seq v.message).acts = true := by
        rcases hserved with ⟨h, _⟩ | ⟨h, _⟩
        · exact Verdict.acts_of_leases h
        · exact Verdict.acts_of_forwards h
      refine ⟨v.message, hm, ready_of_acts hacts, fun w hw hu => ?_⟩
      rcases hserved with ⟨_, hnone⟩ | ⟨hf, hbefore⟩
      · exact absurd hu (hnone w hw)
      · refine ⟨hbefore w hw hu, ?_⟩
        rw [← forwards_eq fun e he => ?_]
        · exact hf
        · rw [he] at hf
          cases hf
    · rintro ⟨m, hm, hready, hway⟩
      rw [← htopic] at hm
      have hv := mem_planned_of_undone hmax' hm (not_done_of_ready hready)
      have hjudge : judge a s c seq m = redeliver s.kv (reclaimPolicy s.kv a.subId) m
          (s.priorAttempts a.subId seq) := judge_of_ready hready
      refine ⟨_, hv, rfl, ?_⟩
      rcases redeliver_eq with ⟨e, he⟩ | hlease | ⟨_, dlq, hforward⟩
      · have hu : Undeliverable a s c (seq, m) := judge_refuses_iff.mp ⟨e, hjudge.trans he⟩
        exact absurd (hway _ hv hu).1 (Nat.lt_irrefl _)
      · left
        have hlease := hjudge.trans hlease
        refine ⟨by rw [hlease]; rfl, fun w hw hu => ?_⟩
        have hdead := (hway w hw hu).2
        rw [← forwards_eq fun e he => ?_] at hdead
        · rw [hlease] at hdead
          cases hdead
        · rw [hlease] at he
          cases he
      · right
        exact ⟨by rw [hjudge.trans hforward]; rfl, fun w hw hu => (hway w hw hu).1⟩
  · have hnil : leaseNext subId topicId maxMessages nowMs secs s = .ok [] s := by
      rw [leaseNext, if_pos (not_lt.mp hpos)]
      rfl
    rw [hnil, served_ok]
    constructor
    · rintro (⟨d, hd, _⟩ | ⟨added, hadded, en, hen, _⟩)
      · cases hd
      · rw [List.self_eq_append_right] at hadded
        rw [hadded] at hen
        cases hen
    · rintro ⟨m, hm, hready, _⟩
      have hcount : 0 < undone s.kv topicId c := by
        rw [undone, List.countP_pos_iff]
        exact ⟨(seq, m), mem_scanPrefix.mpr hm, by rw [not_done_of_ready hready]; rfl⟩
      omega

/-- In every reachable state, a message whose lease is given back is served by the next
call that could lease all exactly when it is still in the log, not done and not filtered,
an explicit retry policy does not hold it back from the time of the nack, and no
undeliverable message is in the way. -/
theorem nack_redelivers_iff (is : List Input) {ackId : String}
    (hl : (Run.final step start is).leases.get subId seq = some l)
    (hid : decodeAckId ackId = some (subId, seq, l.generation)) {c : CursorRecord}
    (hc : (Run.final step start is).kv.cursors.get subId = some c) (topicId : Nat)
    (nowMs secs later maxMessages lease : Int) (hsecs : secs ≤ 0) (hnow : nowMs ≤ later)
    (hmax : (undone (Run.final step start is).kv topicId c : Int) ≤ maxMessages) :
    ∃ t, modifyAckDeadline subId [ackId] nowMs secs (Run.final step start is) = .ok () t ∧
      (Serves t (leaseNext subId topicId maxMessages later lease t) subId seq ↔
        ∃ m, (Run.final step start is).kv.msg.get ⟨topicId, seq⟩ = some m ∧
          c.isDone seq = false ∧
          accepts ((Run.final step start is).filterOf subId) m.attributes = true ∧
          ((reclaimPolicy (Run.final step start is).kv subId).retryPolicyExplicit = true →
            (reclaimPolicy (Run.final step start is).kv subId).eligibleAt nowMs l.attempts ≤
              later) ∧
          Unhindered (leaseArgs t subId topicId maxMessages later lease) t c (seq, m)) := by
  have hwf := wellFormed_final is
  generalize Run.final step start is = s at *
  refine ⟨s.nacked subId seq l nowMs, modifyAckDeadline_nack hwf.healthy hwf.coherent hl hid hsecs,
    ?_⟩
  have hh : (s.nacked subId seq l nowMs).kv.Healthy := hwf.healthy
  rw [leaseNext_serves_ready_iff hh topicId later lease hc rfl hmax]
  refine exists_congr fun m => and_congr_right fun _ => ?_
  have hready : ready (leaseArgs (s.nacked subId seq l nowMs) subId topicId maxMessages later lease)
      (s.nacked subId seq l nowMs) c (seq, m) = true ↔
      c.isDone seq = false ∧ accepts (s.filterOf subId) m.attributes = true ∧
        ((reclaimPolicy s.kv subId).retryPolicyExplicit = true →
          (reclaimPolicy s.kv subId).eligibleAt nowMs l.attempts ≤ later) := ready_nacked hnow
  rw [hready, and_assoc, and_assoc]

/-- One pull, by a subscription with the given options. -/
def pulledOnce (opts : CreateSubscriptionOptions) : List Input := setup opts ++ [pullA 0]

def explicitRetry : CreateSubscriptionOptions :=
  { minRetryBackoffSecs := some 10, maxRetryBackoffSecs := some 600 }

/-- The call returns, and what it hands out and has sent on is as given. -/
def hands (s : Engine) (r : EStateM.Result Error Engine (List Delivered)) (seqs : List Nat)
    (sent : Nat) : Bool :=
  match r with
  | .ok out t => out.map Delivered.seq = seqs ∧ t.deadLettered.length = s.deadLettered.length + sent
  | .error _ _ => false

theorem not_served_of_hands {r : EStateM.Result Error Engine (List Delivered)}
    (h : hands s r [] 0 = true) : ¬ Serves s r subId seq := by
  cases r with
  | error e t => cases h
  | ok out t =>
    simp only [hands, decide_eq_true_eq, List.map_eq_nil_iff] at h
    rw [served_ok]
    rintro (⟨d, hd, _⟩ | ⟨added, hadded, en, hen, _⟩)
    · rw [h.1] at hd
      cases hd
    · rw [hadded, List.length_append] at h
      have hpos := List.length_pos_of_mem hen
      omega

theorem served_of_hands {r : EStateM.Result Error Engine (List Delivered)}
    (h : hands s r [seq] 0 = true) : Serves s r subId seq := by
  cases r with
  | error e t => cases h
  | ok out t =>
    simp only [hands, decide_eq_true_eq] at h
    have hmem : seq ∈ out.map Delivered.seq := by
      rw [h.1]
      exact List.mem_singleton_self _
    exact Or.inl ⟨out, t, rfl, List.mem_map.mp hmem⟩

/-- The lease is given back at time `5`, and the next call comes at time `6`. -/
def nackedThenLeased (opts : CreateSubscriptionOptions) (seqs : List Nat) : Bool :=
  match modifyAckDeadline 2 [encodeAckId 2 1 1] 5 0 (Run.final step start (pulledOnce opts)) with
  | .ok _ t => hands t (leaseNext 2 1 10 6 10 t) seqs 0
  | .error _ _ => false

theorem nack_redelivers_at_once : ∃ t m,
    modifyAckDeadline 2 [encodeAckId 2 1 1] 5 0 (Run.final step start (pulledOnce {})) = .ok () t ∧
      Serves t (leaseNext 2 1 10 6 10 t) 2 1 ∧
      (Run.final step start (pulledOnce {})).kv.msg.get ⟨1, 1⟩ = some m := by
  have hl : (Run.final step start (pulledOnce {})).leases.get 2 1 = some ⟨2, 1, 10000, 1, 1⟩ := by
    decide +kernel
  have hid : decodeAckId (encodeAckId 2 1 1) = some (2, 1, 1) := by decide +kernel
  have hc : (Run.final step start (pulledOnce {})).kv.cursors.get 2 = some (.fresh 0 0) := by
    decide +kernel
  have hmax : (undone (Run.final step start (pulledOnce {})).kv 1 (.fresh 0 0) : Int) ≤ 10 := by
    decide +kernel
  have hserved : nackedThenLeased {} [1] = true := by decide +kernel
  obtain ⟨t, ht, hiff⟩ := nack_redelivers_iff (pulledOnce {}) hl hid hc 1 5 0 6 10 10 (by decide)
    (by decide) hmax
  unfold nackedThenLeased at hserved
  rw [ht] at hserved
  obtain ⟨m, hm, _⟩ := hiff.mp (served_of_hands hserved)
  exact ⟨t, m, ht, served_of_hands hserved, hm⟩

/-- With an explicit retry policy the message is held back after the nack. -/
theorem nack_backs_off : ¬ ∀ (is : List Input) (subId seq : Nat) (l : Lease) (ackId : String)
    (c : CursorRecord) (topicId : Nat) (nowMs secs later maxMessages lease : Int) (t : Engine),
    (Run.final step start is).leases.get subId seq = some l →
      decodeAckId ackId = some (subId, seq, l.generation) →
      (Run.final step start is).kv.cursors.get subId = some c → secs ≤ 0 → nowMs ≤ later →
      (undone (Run.final step start is).kv topicId c : Int) ≤ maxMessages →
      modifyAckDeadline subId [ackId] nowMs secs (Run.final step start is) = .ok () t →
      Serves t (leaseNext subId topicId maxMessages later lease t) subId seq := by
  intro h
  have hl : (Run.final step start (pulledOnce explicitRetry)).leases.get 2 1 =
      some ⟨2, 1, 10000, 1, 1⟩ := by
    decide +kernel
  have hid : decodeAckId (encodeAckId 2 1 1) = some (2, 1, 1) := by decide +kernel
  have hc : (Run.final step start (pulledOnce explicitRetry)).kv.cursors.get 2 =
      some (.fresh 0 0) := by
    decide +kernel
  have hmax : (undone (Run.final step start (pulledOnce explicitRetry)).kv 1 (.fresh 0 0) : Int) ≤
      10 := by
    decide +kernel
  have hnone : nackedThenLeased explicitRetry [] = true := by decide +kernel
  unfold nackedThenLeased at hnone
  cases hr : modifyAckDeadline 2 [encodeAckId 2 1 1] 5 0
    (Run.final step start (pulledOnce explicitRetry)) with
  | ok u t =>
    rw [hr] at hnone
    exact not_served_of_hands hnone
      (h _ 2 1 _ _ _ 1 5 0 6 10 10 t hl hid hc (by decide) (by decide) hmax hr)
  | error e t =>
    rw [hr] at hnone
    cases hnone

end Nack

section Stream

variable {a : LeaseArgs} {s t : Engine} {c : CursorRecord}

/-- The call meets no undeliverable message, or forwards one before the first of them. -/
def Unstuck (a : LeaseArgs) (s : Engine) (c : CursorRecord) : Prop :=
  NoneUndeliverable a s c ∨ ∃ v ∈ planned a s c, deadLetters a s c (v.seq, v.message) = true ∧
    ∀ w ∈ planned a s c, Undeliverable a s c (w.seq, w.message) → v.seq < w.seq

theorem exists_planned_acts (hmax : 0 < a.maxMessages)
    (hready : ∃ row ∈ scanPrefix s.kv.msg a.topicId, ready a s c row = true) :
    ∃ v ∈ planned a s c, v.verdict.acts = true := by
  obtain ⟨row, hrow, hr⟩ := hready
  have hsome : ((judgeAll a s c (scanPrefix s.kv.msg a.topicId)).find?
      fun v => v.verdict.acts).isSome := by
    rw [List.find?_isSome]
    refine ⟨_, List.mem_map.mpr ⟨row, hrow, rfl⟩, ?_⟩
    simp only [judge_of_ready hr]
    rcases redeliver_eq with ⟨e, he⟩ | h | ⟨_, dlq, h⟩
    · rw [he]; rfl
    · rw [h]; rfl
    · rw [h]; rfl
  obtain ⟨v, hv⟩ := Option.isSome_iff_exists.mp hsome
  obtain ⟨hacts, pre, post, hsplit, hidle⟩ := List.find?_eq_some_iff_append.mp hv
  refine ⟨v, ?_, hacts⟩
  rw [planned, visits, hsplit]
  refine Budget.mem_visited ?_
  rw [List.countP_eq_zero.mpr fun x hx hl => ?_]
  · exact hmax
  · have hno := hidle x hx
    rw [Verdict.acts_of_leases hl] at hno
    cases hno

theorem leaseNext_serves_some_iff (hh : s.kv.Healthy) {subId : Nat} (topicId : Nat)
    {maxMessages : Int} (hmax : 0 < maxMessages) (nowMs secs : Int)
    (hc : s.kv.cursors.get subId = some c)
    (ha : a = leaseArgs s subId topicId maxMessages nowMs secs)
    (hready : ∃ row ∈ scanPrefix s.kv.msg topicId, ready a s c row = true) :
    (∃ seq, Serves s (leaseNext subId topicId maxMessages nowMs secs s) subId seq) ↔
      Unstuck a s c := by
  have hpos : 0 < a.maxMessages := by
    rw [ha]
    change 0 < maxMessages.toNat
    omega
  have hready' : ∃ row ∈ scanPrefix s.kv.msg a.topicId, ready a s c row = true := by
    rw [ha] at hready ⊢
    exact hready
  simp only [leaseNext_serves_iff hh topicId hmax nowMs secs hc ha]
  have hjudged : ∀ v ∈ planned a s c, (∀ e, v.verdict ≠ .refuse e) →
      v.verdict.forwards = deadLetters a s c (v.seq, v.message) := by
    intro v hv hnot
    rw [(mem_planned hv).2] at hnot ⊢
    exact @forwards_eq s a c (v.seq, v.message) hnot
  constructor
  · rintro ⟨_, v, hv, rfl, ⟨_, hnone⟩ | ⟨hf, hbefore⟩⟩
    · exact Or.inl hnone
    · refine Or.inr ⟨v, hv, ?_, hbefore⟩
      rw [← hjudged v hv fun e he => ?_]
      · exact hf
      · rw [he] at hf
        cases hf
  · rintro (hnone | ⟨v, hv, hdead, hbefore⟩)
    · obtain ⟨v, hv, hacts⟩ := exists_planned_acts hpos hready'
      refine ⟨v.seq, v, hv, rfl, ?_⟩
      have hnot := noneUndeliverable_iff.mp hnone v hv
      cases hverdict : v.verdict with
      | lease n => exact Or.inl ⟨rfl, hnone⟩
      | forward dlq n => exact Or.inr ⟨rfl, fun w hw hu => absurd hu (hnone w hw)⟩
      | refuse e => exact absurd hverdict (hnot e)
      | _ =>
        rw [hverdict] at hacts
        cases hacts
    · refine ⟨v.seq, v, hv, rfl, Or.inr ⟨?_, hbefore⟩⟩
      rw [hjudged v hv fun e he => ?_]
      · exact hdead
      · have hu : Undeliverable a s c (v.seq, v.message) := by
          rw [← judge_refuses_iff]
          exact ⟨e, (mem_planned hv).2.symm.trans he⟩
        exact absurd (hbefore v hv hu) (Nat.lt_irrefl _)

/-- A stream hands out what its call of `lease_next` does, while it has budget left. -/
theorem served_leaseForStream {sid : Nat} {st : SessionState}
    (hst : s.streams.sessions.get sid = some st) (nowMs : Int) {seq : Nat} :
    Serves s (leaseForStream sid nowMs s) st.info.subId seq ↔
      (0 < (StreamRegistry.sessionBudget st).1 ∧ 0 < (StreamRegistry.sessionBudget st).2) ∧
      Serves s (leaseNext st.info.subId st.info.topicId
        (min (StreamRegistry.sessionBudget st).1 i32Max) nowMs st.info.ackDeadlineSecs s)
        st.info.subId seq := by
  rw [leaseForStream_eq hst]
  split_ifs with hleft
  · rw [iff_false_right fun h => by omega]
    refine not_served_of_hands ?_
    simp [hands]
  · rw [and_iff_right (by omega)]
    cases leaseNext st.info.subId st.info.topicId (min (StreamRegistry.sessionBudget st).1 i32Max)
      nowMs st.info.ackDeadlineSecs s with
    | ok ds t => rw [served_ok, served_ok]
    | error e t => rfl

/-- In every reachable state where a message is ready for the subscription of an open
stream, the stream serves one exactly when it has budget left in messages and in bytes,
and no undeliverable message blocks it. -/
theorem stream_serves_iff (is : List Input) {sid : Nat} {st : SessionState}
    (hst : (Run.final step start is).streams.sessions.get sid = some st)
    (hc : (Run.final step start is).kv.cursors.get st.info.subId = some c) (nowMs : Int)
    (ha : a = leaseArgs (Run.final step start is) st.info.subId st.info.topicId
      (min (StreamRegistry.sessionBudget st).1 i32Max) nowMs st.info.ackDeadlineSecs)
    (hready : ∃ row ∈ scanPrefix (Run.final step start is).kv.msg st.info.topicId,
      ready a (Run.final step start is) c row = true) :
    (∃ seq, Serves (Run.final step start is) (leaseForStream sid nowMs (Run.final step start is))
      st.info.subId seq) ↔
      (0 < (StreamRegistry.sessionBudget st).1 ∧ 0 < (StreamRegistry.sessionBudget st).2) ∧
        Unstuck a (Run.final step start is) c := by
  have hh := (wellFormed_final is).healthy
  simp only [served_leaseForStream hst, exists_and_left]
  refine and_congr_right fun hleft => ?_
  have hmax : 0 < min (StreamRegistry.sessionBudget st).1 i32Max := by
    have hbig : 0 < i32Max := by decide
    omega
  exact leaseNext_serves_some_iff hh _ hmax nowMs _ hc ha hready

/-- A stream that may hold `maxMessages` messages is given the one of the topic. -/
def leasedOnStream (maxMessages : Int) : List Input :=
  setup {} ++ [⟨0, .openStream "projects/p/subscriptions/subA" 10 maxMessages 0⟩,
    ⟨0, .leaseForStream 1⟩]

/-- Every lease of the subscription is past its deadline, and past its retry backoff. -/
def Lapsed (s : Engine) (subId : Nat) (nowMs : Int) : Prop :=
  ∀ q l, s.leases.get subId q = some l → l.deadlineMs ≤ nowMs ∧
    (reclaimPolicy s.kv subId).backsOff nowMs (some l.record) = false

theorem lapsed_of_all {subId : Nat} {nowMs : Int}
    (h : (s.leases.byKey.entries.all fun e => e.2.deadlineMs ≤ nowMs ∧
      (reclaimPolicy s.kv subId).backsOff nowMs (some e.2.record) = false) = true) :
    Lapsed s subId nowMs := by
  intro q l hl
  have hmem := List.all_eq_true.mp h _ (SortedMap.mem_entries.mpr hl)
  simpa only [decide_eq_true_eq] using hmem

def readyFor (s : Engine) (st : SessionState) (c : CursorRecord) (nowMs : Int) : Bool :=
  (scanPrefix s.kv.msg st.info.topicId).any (ready (leaseArgs s st.info.subId st.info.topicId
    (min (StreamRegistry.sessionBudget st).1 i32Max) nowMs st.info.ackDeadlineSecs) s c)

def lapsedStream (s : Engine) (st : SessionState) : Bool :=
  0 < st.info.maxOutstandingMessages ∧
    s.kv.cursors.get st.info.subId = some (.fresh 0 0) ∧
    (s.leases.byKey.entries.all fun e => e.2.deadlineMs ≤ 100000 ∧
      (reclaimPolicy s.kv st.info.subId).backsOff 100000 (some e.2.record) = false) = true ∧
    readyFor s st (.fresh 0 0) 100000 = true

theorem exists_lapsedStream (h : (s.streams.sessions.get 1).any (lapsedStream s) = true) :
    ∃ st, s.streams.sessions.get 1 = some st ∧ 0 < st.info.maxOutstandingMessages ∧
      s.kv.cursors.get st.info.subId = some (.fresh 0 0) ∧ Lapsed s st.info.subId 100000 ∧
      ∃ row ∈ scanPrefix s.kv.msg st.info.topicId, ready (leaseArgs s st.info.subId
        st.info.topicId (min (StreamRegistry.sessionBudget st).1 i32Max) 100000
        st.info.ackDeadlineSecs) s (.fresh 0 0) row = true := by
  rw [Option.any_eq_true] at h
  obtain ⟨st, hst, hp⟩ := h
  simp only [lapsedStream, readyFor, decide_eq_true_eq, List.any_eq_true] at hp
  exact ⟨st, hst, hp.1, hp.2.1, lapsed_of_all hp.2.2.1, hp.2.2.2⟩

theorem stream_serves_twice : ∃ st seq,
    (Run.final step start (leasedOnStream 2)).streams.sessions.get 1 = some st ∧
      0 < (StreamRegistry.sessionBudget st).1 ∧
      Serves (Run.final step start (leasedOnStream 2))
        (leaseForStream 1 100000 (Run.final step start (leasedOnStream 2))) st.info.subId seq := by
  have hlapsed : ((Run.final step start (leasedOnStream 2)).streams.sessions.get 1).any
      (lapsedStream (Run.final step start (leasedOnStream 2))) = true := by
    decide +kernel
  have hhands : hands (Run.final step start (leasedOnStream 2))
      (leaseForStream 1 100000 (Run.final step start (leasedOnStream 2))) [1] 0 = true := by
    decide +kernel
  obtain ⟨st, hst, _, hc, _, hready⟩ := exists_lapsedStream hlapsed
  have hserved : Serves (Run.final step start (leasedOnStream 2))
      (leaseForStream 1 100000 (Run.final step start (leasedOnStream 2))) st.info.subId 1 :=
    served_of_hands hhands
  obtain ⟨hleft, _⟩ :=
    (stream_serves_iff (leasedOnStream 2) hst hc 100000 rfl hready).mp ⟨1, hserved⟩
  exact ⟨st, 1, hst, hleft.1, hserved⟩

/-- The lease has lapsed, but it still takes up the budget of the stream. -/
theorem stream_stalls : ¬ ∀ (is : List Input) (sid : Nat) (st : SessionState) (c : CursorRecord)
    (nowMs : Int), (Run.final step start is).streams.sessions.get sid = some st →
      0 < st.info.maxOutstandingMessages →
      (Run.final step start is).kv.cursors.get st.info.subId = some c →
      Lapsed (Run.final step start is) st.info.subId nowMs →
      (∃ row ∈ scanPrefix (Run.final step start is).kv.msg st.info.topicId,
        ready (leaseArgs (Run.final step start is) st.info.subId st.info.topicId
          (min (StreamRegistry.sessionBudget st).1 i32Max) nowMs st.info.ackDeadlineSecs)
          (Run.final step start is) c row = true) →
      ∃ seq, Serves (Run.final step start is) (leaseForStream sid nowMs (Run.final step start is))
        st.info.subId seq := by
  intro h
  have hlapsed : ((Run.final step start (leasedOnStream 1)).streams.sessions.get 1).any
      (lapsedStream (Run.final step start (leasedOnStream 1))) = true := by
    decide +kernel
  have hhands : hands (Run.final step start (leasedOnStream 1))
      (leaseForStream 1 100000 (Run.final step start (leasedOnStream 1))) [] 0 = true := by
    decide +kernel
  obtain ⟨st, hst, hmax, hc, hall, hready⟩ := exists_lapsedStream hlapsed
  obtain ⟨seq, hserved⟩ := h (leasedOnStream 1) 1 st _ 100000 hst hmax hc hall hready
  exact not_served_of_hands hhands hserved

end Stream

end OpenPubusb
