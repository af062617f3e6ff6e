import OpenPubusb.Blind
import OpenPubusb.ReclaimPaths

/-! Unary pull and a stream that nothing limits lease through the same scan. They
differ in where the scan ends and in what they show of the attempts. -/

namespace OpenPubusb

open Hoare

section Streams

def Engine.withStreams (s : Engine) (r : StreamRegistry) : Engine := { s with streams := r }

theorem blind_onKv {α : Type} (m : KvM α) : Blind Engine.withStreams (onKv m) := by
  have hview : ∀ (s : Engine) (r : StreamRegistry), (s.withStreams r).kv = s.kv := fun _ _ => rfl
  have hset : ∀ (s : Engine) (r : StreamRegistry) (kv : Kv),
      { s.withStreams r with kv := kv } = Engine.withStreams { s with kv := kv } r :=
    fun _ _ _ => rfl
  exact Blind.focus hview hset m

theorem blind_loadCursor (subId : Nat) : Blind Engine.withStreams (loadCursor subId) := by
  refine Blind.get (fun _ _ => rfl) fun s => ?_
  cases s.kv.cursors.get subId with
  | none => exact Blind.throw _
  | some c => exact Blind.pure c

theorem blind_compiledFilter (subId : Nat) : Blind Engine.withStreams (compiledFilter subId) := by
  refine Blind.get (fun _ _ => rfl) fun s => ?_
  cases s.filters.get subId with
  | none => exact Blind.bind (Blind.modify fun _ _ => rfl) fun _ => Blind.pure _
  | some f => exact Blind.pure f

theorem blind_forward (subId seq : Nat) (name : String) (m : MessageRecord)
    (policy : ReclaimPolicy) (n : Nat) (nowMs : Int) :
    Blind Engine.withStreams (forwardToDeadLetterTopic subId seq name m policy n nowMs) := by
  refine Blind.get (fun _ _ => rfl) fun s => ?_
  cases TopicStore.get s.kv name with
  | error e =>
    cases e with
    | notFound _ => exact Blind.pure false
    | _ => exact Blind.throw _
  | ok dlq =>
    refine Blind.bind (blind_onKv _) fun seqs => ?_
    exact Blind.bind (Blind.modify fun _ _ => rfl) fun _ => Blind.pure true

variable (a : LeaseArgs) (sc : Scan) (seq : Nat) (m : MessageRecord)

theorem blind_grant (n : Nat) : Blind Engine.withStreams (grant a sc seq m n) := by
  refine Blind.get (fun _ _ => rfl) fun s => ?_
  refine Blind.bind (Blind.modify fun _ _ => rfl) fun _ => ?_
  exact Blind.bind (blind_onKv _) fun _ => Blind.pure _

theorem blind_reclaim (deadlineMs : Int) (n : Nat) (live : Bool) :
    Blind Engine.withStreams (reclaim a sc seq m deadlineMs n live) := by
  refine Blind.get (fun _ _ => rfl) fun s => Blind.ite (Blind.pure sc) ?_
  refine Blind.bind (Blind.ite (blind_forward _ _ _ _ _ _ _) (Blind.pure false)) fun b => ?_
  refine Blind.bind (Blind.ite (Blind.modify fun _ _ => rfl) (Blind.pure ())) fun _ => ?_
  refine Blind.ite ?_ (blind_grant a sc seq m n)
  exact Blind.bind (blind_onKv _) fun _ => Blind.pure _

theorem blind_leaseOne : Blind Engine.withStreams (leaseOne a sc seq m) := by
  refine Blind.ite (Blind.pure sc) (Blind.ite (Blind.pure _) ?_)
  refine Blind.get (fun _ _ => rfl) fun s => ?_
  cases s.leases.get a.subId seq with
  | some lease => exact Blind.ite (Blind.pure sc) (blind_reclaim a sc seq m _ _ true)
  | none =>
    cases s.kv.dlv.get ⟨a.subId, seq⟩ with
    | some row => exact blind_reclaim a sc seq m _ _ false
    | none => exact blind_grant a sc seq m 0

theorem blind_leaseScan (rows : List (Nat × MessageRecord)) :
    Blind Engine.withStreams (leaseScan a sc rows) := by
  induction rows generalizing sc with
  | nil => exact Blind.pure sc
  | cons row rows ih =>
    exact Blind.ite (Blind.pure sc) (Blind.bind (blind_leaseOne a sc row.1 row.2) fun sc => ih sc)

theorem blind_leaseNext (subId topicId : Nat) (maxMessages nowMs secs : Int) :
    Blind Engine.withStreams (leaseNext subId topicId maxMessages nowMs secs) := by
  refine Blind.ite (Blind.pure []) (Blind.bind (blind_loadCursor subId) fun c => ?_)
  refine Blind.bind (blind_compiledFilter subId) fun f => ?_
  refine Blind.get (fun _ _ => rfl) fun s => Blind.bind (blind_leaseScan _ _ _) fun sc => ?_
  exact Blind.bind (Blind.ite (blind_onKv _) (Blind.pure ())) fun _ => Blind.pure _

end Streams

section Limits

def Verdict.skips : Verdict → Bool
  | .skip => true
  | _ => false

def Verdict.refuses : Verdict → Bool
  | .refuse _ => true
  | _ => false

def LeaseArgs.upTo (a : LeaseArgs) (n : Nat) : LeaseArgs := { a with maxMessages := n }

variable {a : LeaseArgs} {s : Engine} {sc : Scan} {n k : Nat}

theorem leaseOne_upTo (n : Nat) (sc : Scan) (seq : Nat) (m : MessageRecord) :
    leaseOne (a.upTo n) sc seq m = leaseOne a sc seq m := rfl

theorem leaseScan_skips {rows : List (Nat × MessageRecord)}
    (h : ∀ v ∈ judgeAll a s sc.cursor rows, v.verdict.skips = true) :
    leaseScan a sc rows s = .ok sc s := by
  induction rows with
  | nil => rfl
  | cons row rows ih =>
    obtain ⟨seq, m⟩ := row
    simp only [leaseScan]
    split_ifs with hmax
    · rfl
    have hskip := h ⟨seq, m, judge a s sc.cursor seq m⟩ List.mem_cons_self
    have hone := @ensures_leaseOne_decided a seq m s sc
    have hv : judge a s sc.cursor seq m = .skip := by
      cases hj : judge a s sc.cursor seq m with
      | skip => rfl
      | _ =>
        simp only [hj] at hskip
        cases hskip
    rw [hv] at hone
    change EStateM.bind _ _ s = _
    unfold EStateM.bind
    cases hr : leaseOne a sc seq m s with
    | error e t => exact (hone.of_error hr).elim
    | ok sc₁ t =>
      obtain ⟨rfl, rfl⟩ := hone.of_ok hr
      exact ih fun v hv => h v (List.mem_cons_of_mem _ hv)

/-- The rest of the messages makes no difference to a scan with the limit `n`: it fails
before that, or they are all passed by. -/
def RestSkips (a : LeaseArgs) (s : Engine) (c : CursorRecord) (n : Nat)
    (rows : List (Nat × MessageRecord)) : Prop :=
  (∃ v ∈ visits a s c n rows, v.verdict.refuses = true) ∨
    ∀ v ∈ (judgeAll a s c rows).drop (visits a s c n rows).length, v.verdict.skips = true

theorem leaseScan_upTo (hnk : n ≤ k) {rows : List (Nat × MessageRecord)}
    (hsorted : (rows.map Prod.fst).Pairwise (· < ·))
    (h : RestSkips a s sc.cursor (n - sc.out.length) rows) :
    leaseScan (a.upTo n) sc rows s = leaseScan (a.upTo k) sc rows s := by
  induction rows generalizing s sc with
  | nil => rfl
  | cons row rows ih =>
    obtain ⟨seq, m⟩ := row
    obtain ⟨hlt, hsorted⟩ := List.pairwise_cons.mp hsorted
    by_cases hn : n ≤ sc.out.length
    · have hzero : n - sc.out.length = 0 := by omega
      simp only [RestSkips, visits, hzero, Budget.visited_zero, List.not_mem_nil, false_and,
        exists_false, false_or, List.length_nil, List.drop_zero] at h
      have hall : ∀ v ∈ judgeAll (a.upTo k) s sc.cursor ((seq, m) :: rows),
          v.verdict.skips = true := h
      have hmax : (a.upTo n).maxMessages ≤ sc.out.length := hn
      rw [leaseScan_skips hall]
      simp only [leaseScan, if_pos hmax]
      rfl
    have hk : ¬ k ≤ sc.out.length := by omega
    have hnmax : ¬ (a.upTo n).maxMessages ≤ sc.out.length := hn
    have hkmax : ¬ (a.upTo k).maxMessages ≤ sc.out.length := hk
    simp only [leaseScan, if_neg hnmax, if_neg hkmax, leaseOne_upTo]
    change EStateM.bind _ _ s = EStateM.bind _ _ s
    unfold EStateM.bind
    have hone := @ensures_leaseOne_decided a seq m s sc
    cases hr : leaseOne a sc seq m s with
    | error e t => rfl
    | ok sc₁ u =>
      have hu := hone.of_ok hr
      refine ih hsorted ?_
      obtain ⟨l, hl⟩ : ∃ l, n - sc.out.length = l + 1 := ⟨n - sc.out.length - 1, by omega⟩
      have hleft : n - sc₁.out.length = if (judge a s sc.cursor seq m).leases then l else l + 1 := by
        rw [hu.out_length]
        split_ifs <;> omega
      have hvisits : visits a s sc.cursor (n - sc.out.length) ((seq, m) :: rows) =
          ⟨seq, m, judge a s sc.cursor seq m⟩ :: visits a s sc.cursor (n - sc₁.out.length) rows := by
        rw [hl, hleft]
        rfl
      have hrest : visits a u sc₁.cursor (n - sc₁.out.length) rows =
          visits a s sc.cursor (n - sc₁.out.length) rows := by
        rw [visits, hu.judgeAll_eq hlt]
        rfl
      unfold RestSkips at h ⊢
      rw [hrest, hu.judgeAll_eq hlt]
      rw [hvisits] at h
      refine h.imp (fun hrefused => ?_) (fun h => h)
      obtain ⟨v, hv, href⟩ := hrefused
      rcases List.mem_cons.mp hv with rfl | hv
      · simp only at href hu
        cases hj : judge a s sc.cursor seq m with
        | refuse e =>
          rw [hj] at hu
          exact hu.elim
        | _ =>
          rw [hj] at href
          cases href
      · exact ⟨v, hv, href⟩

end Limits

section Calls

/-- The decisions about the log of the subscription, whatever the limit. -/
def decisions (s : Engine) (sub : SubscriptionRecord) (nowMs : Int) (c : CursorRecord) :
    List Judged :=
  judgeAll (leaseArgs s sub.id sub.topicId 0 nowMs sub.ackDeadlineSecs) s c
    (scanPrefix s.kv.msg sub.topicId)

/-- How many messages can be leased. -/
def leasableCount (s : Engine) (sub : SubscriptionRecord) (nowMs : Int) : Nat :=
  match s.kv.cursors.get sub.id with
  | none => 0
  | some c => (decisions s sub nowMs c).countP (fun v => v.verdict.leases)

/-- A call with the limit `maxMessages` fails at a message that an unlimited one fails at
as well, or it shows the attempts as the other does and leaves out no message that the other
takes off. -/
def unaryMeetsStream (s : Engine) (sub : SubscriptionRecord) (maxMessages nowMs : Int) : Bool :=
  match s.kv.cursors.get sub.id with
  | none => decide (0 < maxMessages)
  | some c =>
    let all := decisions s sub nowMs c
    let seen := Budget.visited (fun v => v.verdict.leases) maxMessages.toNat all
    seen.any (fun v => v.verdict.refuses) ||
      (sub.deadLetterTopic.isSome || !all.any (fun v => v.verdict.leases)) &&
        (all.drop seen.length).all (fun v => v.verdict.skips)

/-- A stream is opened with the deadline of the subscription, and leases once. -/
def freshStreamLease (name : String) (ackDeadlineSecs maxOutstandingMessages
    maxOutstandingBytes nowMs : Int) : EngineM (List PulledMessage) := do
  let (streamId, _) ← PubSubService.openStream name ackDeadlineSecs maxOutstandingMessages
    maxOutstandingBytes
  PubSubService.leaseForStream streamId nowMs

def replyOf {α : Type} (r : EStateM.Result Error Engine α) : Except Error α :=
  match r with
  | .ok a _ => .ok a
  | .error e _ => .error e

/-- The same reply, with the same leases, rows and cursors after it. -/
def SameDelivery {α : Type} (r r' : EStateM.Result Error Engine α) : Prop :=
  replyOf r = replyOf r' ∧ (leftBy r).leases = (leftBy r').leases ∧
    (leftBy r).kv.dlv = (leftBy r').kv.dlv ∧ (leftBy r).kv.cursors = (leftBy r').kv.cursors

variable {s : Engine} {name : String} {sub : SubscriptionRecord} {maxMessages nowMs : Int}

theorem attached_eq (hsub : SubscriptionStore.get s.kv name = .ok sub)
    (hatt : ¬ (sub.detached ∨ sub.topic = deletedTopic)) :
    PubSubService.attached name s = .ok sub s := by
  change EStateM.bind (liftResult (SubscriptionStore.get s.kv name)) _ s = _
  rw [hsub]
  change (if sub.detached ∨ sub.topic = deletedTopic then _ else _ : EngineM _) s = _
  rw [if_neg hatt]
  rfl

theorem touch_outcome (subId : Nat) (nowMs : Int) (t : Engine) :
    ∃ kv, PubSubService.touch subId nowMs t = .ok () { t with kv := kv } ∧
      kv.dlv = t.kv.dlv ∧ kv.cursors = t.kv.cursors := by
  have hpersist : ∀ r, Keeps (fun kv kv' : Kv => kv'.dlv = kv.dlv ∧ kv'.cursors = kv.cursors)
      (SubscriptionStore.persist r) := by
    intro r kv
    simp only [SubscriptionStore.persist, putSub, putSubName, ensures_bind, ensures_kvWrite]
    simp only [and_self, implies_true]
  have htouch : Ensures (SubscriptionStore.touch subId nowMs) t.kv
      (fun _ kv => kv.dlv = t.kv.dlv ∧ kv.cursors = t.kv.cursors)
      (fun _ kv => kv.dlv = t.kv.dlv ∧ kv.cursors = t.kv.cursors) := by
    simp only [SubscriptionStore.touch, ensures_bind, ensures_estateGet]
    cases SubscriptionStore.load t.kv subId s!"sub_id={subId}" with
    | error e => exact ⟨rfl, rfl⟩
    | ok r => exact hpersist _ t.kv
  have hignore : ∀ {α : Type} (m : EngineM α), ignore m t =
      match m t with
      | .ok _ u => .ok () u
      | .error _ u => .ok () u := by
    intro α m
    change EStateM.bind (Hoare.succeeds m) _ t = _
    unfold EStateM.bind Hoare.succeeds
    cases m t <;> rfl
  unfold PubSubService.touch onKv
  rw [hignore, focus]
  cases hr : SubscriptionStore.touch subId nowMs t.kv with
  | ok u kv => exact ⟨kv, rfl, htouch.of_ok hr⟩
  | error e kv => exact ⟨kv, rfl, htouch.of_error hr⟩

theorem pull_outcome (hsub : SubscriptionStore.get s.kv name = .ok sub)
    (hatt : ¬ (sub.detached ∨ sub.topic = deletedTopic)) (hmax : maxMessages ≤ 1000) :
    match leaseNext sub.id sub.topicId maxMessages nowMs sub.ackDeadlineSecs s with
    | .ok ds t => ∃ t', PubSubService.pull name maxMessages nowMs s =
        .ok (ds.map (.ofDelivered sub.deadLetterTopic.isSome)) t' ∧ t'.leases = t.leases ∧
        t'.kv.dlv = t.kv.dlv ∧ t'.kv.cursors = t.kv.cursors
    | .error e t => PubSubService.pull name maxMessages nowMs s = .error e t := by
  have hvalid : validatePullMaxMessages (max maxMessages 1) = .ok () := by
    refine validateRange_eq_ok.mpr ?_
    unfold minPullMaxMessages maxPullMaxMessages
    omega
  have hpull : PubSubService.pullDelivered name maxMessages nowMs s =
      EStateM.bind (leaseNext sub.id sub.topicId maxMessages nowMs sub.ackDeadlineSecs)
        (fun ds => PubSubService.touch sub.id nowMs >>= fun _ => pure (sub, ds)) s := by
    change EStateM.bind (liftResult (validatePullMaxMessages (max maxMessages 1))) _ s = _
    rw [hvalid]
    change EStateM.bind (PubSubService.attached name) _ s = _
    rw [EStateM.bind, attached_eq hsub hatt]
    rfl
  have hshow : PubSubService.pull name maxMessages nowMs s =
      EStateM.bind (PubSubService.pullDelivered name maxMessages nowMs)
        (fun r => pure (r.2.map (.ofDelivered r.1.deadLetterTopic.isSome))) s := rfl
  rw [hshow, EStateM.bind, hpull, EStateM.bind]
  cases leaseNext sub.id sub.topicId maxMessages nowMs sub.ackDeadlineSecs s with
  | error e t => rfl
  | ok ds t =>
    obtain ⟨kv, htouch, hdlv, hcur⟩ := touch_outcome sub.id nowMs t
    have hrun : (PubSubService.touch sub.id nowMs >>= fun _ => pure (sub, ds) : EngineM _) t =
        .ok (sub, ds) { t with kv := kv } := by
      change EStateM.bind _ _ t = _
      rw [EStateM.bind, htouch]
      rfl
    simp only [hrun]
    exact ⟨_, rfl, rfl, hdlv, hcur⟩

theorem freshStream_outcome (hsub : SubscriptionStore.get s.kv name = .ok sub)
    (hatt : ¬ (sub.detached ∨ sub.topic = deletedTopic)) {msgs bytes : Int} (hmsgs : msgs ≤ 0)
    (hbytes : bytes ≤ 0) :
    match leaseNext sub.id sub.topicId i32Max nowMs sub.ackDeadlineSecs s with
    | .ok ds t => ∃ r, freshStreamLease name sub.ackDeadlineSecs msgs bytes nowMs s =
        .ok (ds.map (.ofDelivered true)) (t.withStreams r)
    | .error e t => ∃ r, freshStreamLease name sub.ackDeadlineSecs msgs bytes nowMs s =
        .error e (t.withStreams r) := by
  generalize hr : s.streams.openStream
    ⟨sub.id, sub.topicId, sub.ackDeadlineSecs, msgs, bytes⟩ = r
  have hopen : PubSubService.openStream name sub.ackDeadlineSecs msgs bytes s =
      .ok (s.streams.nextId + 1, sub) (s.withStreams r) := by
    change EStateM.bind (PubSubService.attached name) _ s = _
    rw [EStateM.bind, attached_eq hsub hatt, ← hr]
    rfl
  have hsession : r.sessions.get (s.streams.nextId + 1) =
      some ⟨⟨sub.id, sub.topicId, sub.ackDeadlineSecs, msgs, bytes⟩, ∅, 0⟩ := by
    rw [← hr]
    exact SortedMap.get_insert_self ..
  have hbudget : r.remainingBudget (s.streams.nextId + 1) = (i64Max, i64Max) := by
    simp only [StreamRegistry.remainingBudget, hsession, StreamRegistry.sessionBudget,
      if_pos hmsgs, if_pos hbytes]
  have hlease : OpenPubusb.leaseForStream (s.streams.nextId + 1) nowMs (s.withStreams r) =
      EStateM.bind (leaseNext sub.id sub.topicId i32Max nowMs sub.ackDeadlineSecs)
        (fun ds => do
          modify fun s' => { s' with
            streams := recordLeasedAll s'.streams (s.streams.nextId + 1) ds }
          pure ds) (s.withStreams r) := by
    have hinfo : r.info (s.streams.nextId + 1) =
        some ⟨sub.id, sub.topicId, sub.ackDeadlineSecs, msgs, bytes⟩ := by
      rw [StreamRegistry.info, hsession]
      rfl
    have hroom : ¬ ((r.remainingBudget (s.streams.nextId + 1)).1 ≤ 0 ∨
        (r.remainingBudget (s.streams.nextId + 1)).2 ≤ 0) := by
      rw [hbudget]
      decide
    have hmin : min (r.remainingBudget (s.streams.nextId + 1)).1 i32Max = i32Max := by
      rw [hbudget]
      decide
    have hstreams : (s.withStreams r).streams = r := rfl
    apply Ensures.run_eq
    simp only [OpenPubusb.leaseForStream, ensures_bind, ensures_get, hstreams, hinfo, if_neg hroom,
      hmin]
    unfold Ensures EStateM.bind
    cases leaseNext sub.id sub.topicId i32Max nowMs sub.ackDeadlineSecs (s.withStreams r) <;> rfl
  have hshow : freshStreamLease name sub.ackDeadlineSecs msgs bytes nowMs s =
      EStateM.bind (OpenPubusb.leaseForStream (s.streams.nextId + 1) nowMs)
        (fun ds => pure (ds.map (.ofDelivered true))) (s.withStreams r) := by
    change EStateM.bind (PubSubService.openStream name sub.ackDeadlineSecs msgs bytes) _ s = _
    rw [EStateM.bind, hopen]
    rfl
  rw [hshow, EStateM.bind, hlease, EStateM.bind, blind_leaseNext]
  cases leaseNext sub.id sub.topicId i32Max nowMs sub.ackDeadlineSecs s with
  | error e t => exact ⟨r, rfl⟩
  | ok ds t => exact ⟨_, rfl⟩

theorem leaseNext_error_of_none {subId topicId : Nat} {secs : Int} (hmax : 0 < maxMessages)
    (hc : s.kv.cursors.get subId = none) :
    leaseNext subId topicId maxMessages nowMs secs s =
      .error (.notFound s!"subscription cursor for id {subId}") s := by
  unfold leaseNext
  rw [if_neg (not_le.mpr hmax)]
  have hload : loadCursor subId s =
      .error (.notFound s!"subscription cursor for id {subId}") s := by
    change (match s.kv.cursors.get subId with
      | none => throw (.notFound s!"subscription cursor for id {subId}")
      | some c => pure c : EngineM CursorRecord) s = _
    rw [hc]
    rfl
  change EStateM.bind _ _ s = _
  rw [EStateM.bind, hload]

variable {c : CursorRecord}

def logRows (s : Engine) (sub : SubscriptionRecord) : List (Nat × MessageRecord) :=
  scanPrefix s.kv.msg sub.topicId

/-- What the limited call leaves out makes no difference to what is leased. -/
theorem leaseNext_sameDelivery (hc : s.kv.cursors.get sub.id = some c) (hlo : 0 ≤ maxMessages)
    (hhi : maxMessages ≤ i32Max)
    (h : RestSkips (leaseArgs s sub.id sub.topicId 0 nowMs sub.ackDeadlineSecs) s c
      maxMessages.toNat (logRows s sub)) :
    SameDelivery (leaseNext sub.id sub.topicId maxMessages nowMs sub.ackDeadlineSecs s)
      (leaseNext sub.id sub.topicId i32Max nowMs sub.ackDeadlineSecs s) := by
  have hpos : (0 : Int) < i32Max := by decide
  rw [leaseNext_eq sub.topicId nowMs sub.ackDeadlineSecs hpos hc]
  by_cases hmax : maxMessages ≤ 0
  · have hzero : maxMessages.toNat = 0 := by omega
    simp only [RestSkips, visits, hzero, Budget.visited_zero, List.not_mem_nil, false_and,
      exists_false, false_or, List.length_nil, List.drop_zero] at h
    have hall : ∀ v ∈ judgeAll (leaseArgs s sub.id sub.topicId i32Max nowMs sub.ackDeadlineSecs)
        (s.cacheFilter sub.id) c (logRows s sub), v.verdict.skips = true := h
    have hscan : leaseNextLocked (leaseArgs s sub.id sub.topicId i32Max nowMs sub.ackDeadlineSecs) c
        (s.cacheFilter sub.id) = .ok [] (s.cacheFilter sub.id) := by
      change EStateM.bind (leaseScan _ ⟨c, false, []⟩ (logRows s sub)) _ (s.cacheFilter sub.id) = _
      rw [EStateM.bind, @leaseScan_skips _ _ ⟨c, false, []⟩ _ hall]
      rfl
    rw [hscan, leaseNext, if_pos hmax]
    exact ⟨rfl, rfl, rfl, rfl⟩
  · rw [leaseNext_eq sub.topicId nowMs sub.ackDeadlineSecs (not_le.mp hmax) hc]
    have hnk : maxMessages.toNat ≤ i32Max.toNat := by omega
    have hscan := @leaseScan_upTo _ (s.cacheFilter sub.id) ⟨c, false, []⟩ _ _ hnk _
      (scanPrefix_increasing s.kv.msg sub.topicId) h
    have hlocked : leaseNextLocked
        (leaseArgs s sub.id sub.topicId maxMessages nowMs sub.ackDeadlineSecs) c
          (s.cacheFilter sub.id) =
        leaseNextLocked (leaseArgs s sub.id sub.topicId i32Max nowMs sub.ackDeadlineSecs) c
          (s.cacheFilter sub.id) := by
      change EStateM.bind (leaseScan ((leaseArgs s sub.id sub.topicId 0 nowMs
          sub.ackDeadlineSecs).upTo maxMessages.toNat) ⟨c, false, []⟩ (logRows s sub)) _ _ =
        EStateM.bind (leaseScan ((leaseArgs s sub.id sub.topicId 0 nowMs
          sub.ackDeadlineSecs).upTo i32Max.toNat) ⟨c, false, []⟩ (logRows s sub)) _ _
      unfold EStateM.bind
      rw [show logRows s sub = scanPrefix s.kv.msg sub.topicId from rfl, hscan]
      rfl
    rw [hlocked]
    exact ⟨rfl, rfl, rfl, rfl⟩

theorem leaseNext_returned (hc : s.kv.cursors.get sub.id = some c) {ds : List Delivered}
    {t : Engine}
    (hrun : leaseNext sub.id sub.topicId maxMessages nowMs sub.ackDeadlineSecs s = .ok ds t) :
    let a := leaseArgs s sub.id sub.topicId 0 nowMs sub.ackDeadlineSecs
    let seen := visits a s c maxMessages.toNat (logRows s sub)
    (∀ v ∈ seen, v.verdict.refuses = false) ∧ ds = seen.filterMap (Judged.delivery a) ∧
      ∃ c', t.kv.cursors.get sub.id = some c' ∧ ∀ q, c'.isDone q = true ↔
        c.isDone q = true ∨ ∃ v ∈ seen, v.seq = q ∧ v.verdict.finishes = true := by
  intro a seen
  by_cases hmax : maxMessages ≤ 0
  · have hseen : seen = [] := by
      have hzero : maxMessages.toNat = 0 := by omega
      simp only [seen, visits, hzero, Budget.visited_zero]
    rw [leaseNext, if_pos hmax] at hrun
    obtain ⟨rfl, rfl⟩ : [] = ds ∧ s = t := by
      cases hrun
      exact ⟨rfl, rfl⟩
    rw [hseen]
    exact ⟨by simp, rfl, c, hc, fun q => by simp⟩
  · obtain ⟨u, sc, hscan, hout, _, ht⟩ :=
      (ensures_leaseNext_exact sub.topicId nowMs sub.ackDeadlineSecs (not_le.mp hmax) hc).of_ok hrun
    refine ⟨fun v hv => ?_, ?_, sc.cursor, ?_, fun q => hscan.done q⟩
    · cases hj : v.verdict with
      | refuse e => exact absurd hj (hscan.taken v hv e)
      | _ => rfl
    · rw [hout, hscan.out]
      rfl
    · rw [ht, withCursor_get hscan hc]
      exact if_pos rfl

theorem leaseNext_returns (hh : s.kv.Healthy) (hc : s.kv.cursors.get sub.id = some c)
    (hseen : ∀ v ∈ visits (leaseArgs s sub.id sub.topicId 0 nowMs sub.ackDeadlineSecs) s c
      maxMessages.toNat (logRows s sub), v.verdict.refuses = false) :
    ∃ ds t, leaseNext sub.id sub.topicId maxMessages nowMs sub.ackDeadlineSecs s = .ok ds t := by
  by_cases hmax : maxMessages ≤ 0
  · rw [leaseNext, if_pos hmax]
    exact ⟨[], s, rfl⟩
  · refine (leaseNext_ok_iff hh sub.topicId (not_le.mp hmax) nowMs sub.ackDeadlineSecs hc).mpr
      (noneUndeliverable_iff.mpr fun v hv e he => ?_)
    have hv := hseen v hv
    rw [he] at hv
    cases hv

theorem unaryMeetsStream_some (hc : s.kv.cursors.get sub.id = some c) :
    unaryMeetsStream s sub maxMessages nowMs = true ↔
      (∃ v ∈ visits (leaseArgs s sub.id sub.topicId 0 nowMs sub.ackDeadlineSecs) s c
        maxMessages.toNat (logRows s sub), v.verdict.refuses = true) ∨
      (sub.deadLetterTopic.isSome = true ∨
        ∀ v ∈ decisions s sub nowMs c, v.verdict.leases = false) ∧
      ∀ v ∈ (decisions s sub nowMs c).drop (visits (leaseArgs s sub.id sub.topicId 0 nowMs
        sub.ackDeadlineSecs) s c maxMessages.toNat (logRows s sub)).length,
        v.verdict.skips = true := by
  unfold unaryMeetsStream
  rw [hc]
  simp only [Bool.or_eq_true, Bool.and_eq_true, List.any_eq_true, List.all_eq_true,
    Bool.not_eq_true', List.any_eq_false, Bool.not_eq_true]
  rfl

variable {msgs bytes : Int}

theorem sameDelivery_of_meets (hsub : SubscriptionStore.get s.kv name = .ok sub)
    (hatt : ¬ (sub.detached ∨ sub.topic = deletedTopic)) (hmax : maxMessages ≤ 1000)
    (hcount : (leasableCount s sub nowMs : Int) ≤ maxMessages) (hmsgs : msgs ≤ 0)
    (hbytes : bytes ≤ 0) (hmeets : unaryMeetsStream s sub maxMessages nowMs = true) :
    SameDelivery (PubSubService.pull name maxMessages nowMs s)
      (freshStreamLease name sub.ackDeadlineSecs msgs bytes nowMs s) := by
  have hpull := @pull_outcome s name sub maxMessages nowMs hsub hatt hmax
  have hstream := @freshStream_outcome s name sub nowMs hsub hatt _ _ hmsgs hbytes
  have hi32 : (1000 : Int) ≤ i32Max := by decide
  cases hc : s.kv.cursors.get sub.id with
  | none =>
    simp only [unaryMeetsStream, hc, decide_eq_true_eq] at hmeets
    rw [leaseNext_error_of_none hmeets hc] at hpull
    rw [leaseNext_error_of_none (by decide) hc] at hstream
    obtain ⟨r, hstream⟩ := hstream
    rw [hpull, hstream]
    exact ⟨rfl, rfl, rfl, rfl⟩
  | some c =>
    have hcases := (unaryMeetsStream_some hc).mp hmeets
    have hsame := @leaseNext_sameDelivery s sub maxMessages nowMs c hc (by omega) (hmax.trans hi32)
      (hcases.imp id And.right)
    cases hL : leaseNext sub.id sub.topicId maxMessages nowMs sub.ackDeadlineSecs s with
    | error e t =>
      rw [hL] at hpull hsame
      cases hN : leaseNext sub.id sub.topicId i32Max nowMs sub.ackDeadlineSecs s with
      | ok ds' t' =>
        rw [hN] at hsame
        cases hsame.1
      | error e' t' =>
        rw [hN] at hstream hsame
        obtain ⟨r, hstream⟩ := hstream
        rw [hpull, hstream]
        obtain ⟨he, hrest⟩ := hsame
        cases he
        exact ⟨rfl, hrest⟩
    | ok ds t =>
      rw [hL] at hpull hsame
      obtain ⟨t₁, hpull, hleases, hdlv, hcur⟩ := hpull
      obtain ⟨htaken, hds, _⟩ := leaseNext_returned hc hL
      cases hN : leaseNext sub.id sub.topicId i32Max nowMs sub.ackDeadlineSecs s with
      | error e' t' =>
        rw [hN] at hsame
        cases hsame.1
      | ok ds' t' =>
        rw [hN] at hstream hsame
        obtain ⟨r, hstream⟩ := hstream
        obtain ⟨hreply, hleases', hdlv', hcur'⟩ := hsame
        cases hreply
        rw [hpull, hstream]
        refine ⟨?_, hleases.trans hleases', hdlv.trans hdlv', hcur.trans hcur'⟩
        rcases hcases with ⟨v, hv, href⟩ | ⟨hexpose | hnone, _⟩
        · rw [htaken v hv] at href
          cases href
        · rw [hexpose]
          rfl
        · have hempty : ds = [] := by
            rw [hds, List.filterMap_eq_nil_iff]
            intro v hv
            have hleases := hnone v ((Budget.visited_initial _ _ _).subset hv)
            unfold Judged.delivery
            cases hj : v.verdict with
            | lease n =>
              rw [hj] at hleases
              cases hleases
            | _ => rfl
          rw [hempty]
          rfl

theorem logRows_ascending : (decisions s sub nowMs c).Pairwise fun v w => v.seq < w.seq :=
  List.pairwise_map.mpr (List.pairwise_map.mp (scanPrefix_increasing s.kv.msg sub.topicId))

theorem mem_decisions {v : Judged} (hv : v ∈ decisions s sub nowMs c) : v.verdict =
    judge (leaseArgs s sub.id sub.topicId 0 nowMs sub.ackDeadlineSecs) s c v.seq v.message := by
  obtain ⟨row, _, rfl⟩ := List.mem_map.mp hv
  rfl

theorem not_done_of_finishes {a : LeaseArgs} {seq : Nat} {m : MessageRecord}
    (h : (judge a s c seq m).finishes = true) : c.isDone seq = false := by
  by_contra hd
  rw [judge, if_pos (by simpa using hd)] at h
  cases h

theorem meets_of_sameDelivery (hh : s.kv.Healthy)
    (hsub : SubscriptionStore.get s.kv name = .ok sub)
    (hatt : ¬ (sub.detached ∨ sub.topic = deletedTopic)) (hmax : maxMessages ≤ 1000)
    (hcount : (leasableCount s sub nowMs : Int) ≤ maxMessages) (hmsgs : msgs ≤ 0)
    (hbytes : bytes ≤ 0)
    (hsame : SameDelivery (PubSubService.pull name maxMessages nowMs s)
      (freshStreamLease name sub.ackDeadlineSecs msgs bytes nowMs s)) :
    unaryMeetsStream s sub maxMessages nowMs = true := by
  have hpull := @pull_outcome s name sub maxMessages nowMs hsub hatt hmax
  have hstream := @freshStream_outcome s name sub nowMs hsub hatt _ _ hmsgs hbytes
  obtain ⟨hreply, _, _, hcursors⟩ := hsame
  cases hc : s.kv.cursors.get sub.id with
  | none =>
    simp only [unaryMeetsStream, hc, decide_eq_true_eq]
    by_contra hzero
    rw [leaseNext_error_of_none (by decide) hc] at hstream
    rw [leaseNext, if_pos (not_lt.mp hzero)] at hpull
    obtain ⟨_, hpull, _⟩ := hpull
    obtain ⟨_, hstream⟩ := hstream
    rw [hpull, hstream] at hreply
    cases hreply
  | some c =>
    refine (unaryMeetsStream_some hc).mpr (or_iff_not_imp_left.mpr fun hno => ?_)
    have htaken : ∀ v ∈ visits (leaseArgs s sub.id sub.topicId 0 nowMs sub.ackDeadlineSecs) s c
        maxMessages.toNat (logRows s sub), v.verdict.refuses = false := fun v hv => by
      by_contra href
      exact hno ⟨v, hv, by simpa using href⟩
    obtain ⟨ds, t, hL⟩ := leaseNext_returns hh hc htaken
    obtain ⟨_, hds, c₁, hc₁, hdone₁⟩ := leaseNext_returned hc hL
    rw [hL] at hpull
    obtain ⟨t₁, hpull, _, _, hcur⟩ := hpull
    cases hN : leaseNext sub.id sub.topicId i32Max nowMs sub.ackDeadlineSecs s with
    | error e t' =>
      rw [hN] at hstream
      obtain ⟨_, hstream⟩ := hstream
      rw [hpull, hstream] at hreply
      cases hreply
    | ok ds' t' =>
      obtain ⟨htaken', hds', c₂, hc₂, hdone₂⟩ := leaseNext_returned hc hN
      rw [hN] at hstream
      obtain ⟨r, hstream⟩ := hstream
      rw [hpull, hstream] at hreply hcursors
      have hleasable : (decisions s sub nowMs c).countP (fun v => v.verdict.leases) ≤
          maxMessages.toNat := by
        simp only [leasableCount, hc] at hcount
        omega
      have hall : visits (leaseArgs s sub.id sub.topicId 0 nowMs sub.ackDeadlineSecs) s c
          i32Max.toNat (logRows s sub) = decisions s sub nowMs c := by
        have hlt : (decisions s sub nowMs c).countP (fun v => v.verdict.leases) <
            i32Max.toNat := by
          have hi32 : i32Max = 2147483647 := rfl
          omega
        exact Budget.visited_of_countP_lt hlt
      rw [hall] at htaken' hds' hdone₂
      refine ⟨or_iff_not_imp_left.mpr fun hhide v hv => ?_, fun v hv => ?_⟩
      · by_contra hlease
        cases hj : v.verdict with
        | lease n =>
          have hmem : deliver (leaseArgs s sub.id sub.topicId 0 nowMs sub.ackDeadlineSecs) v.seq
              v.message (satSuccU32 n) ∈ ds' := by
            rw [hds', List.mem_filterMap]
            exact ⟨v, hv, by rw [Judged.delivery, hj]⟩
          have hshown := List.mem_map_of_mem (f := PulledMessage.ofDelivered true) hmem
          cases hreply' : ds'.map (PulledMessage.ofDelivered true) with
          | nil =>
            rw [hreply'] at hshown
            cases hshown
          | cons x xs =>
            rw [← Except.ok.inj hreply] at hshown
            obtain ⟨d, _, hd⟩ := List.mem_map.mp hshown
            have hattempt := congrArg PulledMessage.deliveryAttempt hd
            simp only [PulledMessage.ofDelivered, hhide, if_true, Bool.false_eq_true, if_false,
              deliver, satSuccU32, u32Max] at hattempt
            omega
        | _ =>
          rw [hj] at hlease
          exact hlease rfl
      · have hvall := List.mem_of_mem_drop hv
        have hnotlease := Budget.of_mem_drop_visited hleasable hv
        have hnotrefused := htaken' v hvall
        cases hj : v.verdict with
        | skip => rfl
        | lease n =>
          rw [hj] at hnotlease
          cases hnotlease
        | refuse e =>
          rw [hj] at hnotrefused
          cases hnotrefused
        | _ =>
          have hfin : v.verdict.finishes = true := by
            rw [hj]
            rfl
          have hdone := (hdone₂ v.seq).mpr (Or.inr ⟨v, hvall, rfl, hfin⟩)
          have hsamecur : c₁ = c₂ := by
            have hcursor := congrArg (fun m => m.get sub.id) hcursors
            change t₁.kv.cursors.get sub.id = t'.kv.cursors.get sub.id at hcursor
            rw [hcur, hc₁, hc₂] at hcursor
            exact Option.some.inj hcursor
          rw [← hsamecur, hdone₁] at hdone
          rcases hdone with hdone | ⟨w, hw, hseq, _⟩
          · rw [mem_decisions hvall] at hfin
            rw [not_done_of_finishes hfin] at hdone
            cases hdone
          · have hsplit := List.prefix_iff_eq_append.mp
              (Budget.visited_initial (fun v : Judged => v.verdict.leases) maxMessages.toNat
                (decisions s sub nowMs c))
            have hsorted := @logRows_ascending s sub nowMs c
            rw [← hsplit, List.pairwise_append] at hsorted
            have hlt := hsorted.2.2 w hw v hv
            omega

/-- The two ways to ask for messages tell the same if the attempts are shown by both, and
what lies behind the limit of the unary one is passed by. -/
theorem unary_agrees_with_stream_iff (hsub : SubscriptionStore.get s.kv name = .ok sub)
    (hatt : ¬ (sub.detached ∨ sub.topic = deletedTopic)) (hmax : maxMessages ≤ 1000)
    (hcount : (leasableCount s sub nowMs : Int) ≤ maxMessages) (hmsgs : msgs ≤ 0)
    (hbytes : bytes ≤ 0) :
    (unaryMeetsStream s sub maxMessages nowMs = true →
      SameDelivery (PubSubService.pull name maxMessages nowMs s)
        (freshStreamLease name sub.ackDeadlineSecs msgs bytes nowMs s)) ∧
    (s.kv.Healthy →
      SameDelivery (PubSubService.pull name maxMessages nowMs s)
        (freshStreamLease name sub.ackDeadlineSecs msgs bytes nowMs s) →
      unaryMeetsStream s sub maxMessages nowMs = true) :=
  ⟨sameDelivery_of_meets hsub hatt hmax hcount hmsgs hbytes,
    fun hh => meets_of_sameDelivery hh hsub hatt hmax hcount hmsgs hbytes⟩

/-- The subscription `2` has a dead-letter topic, and one message waits. -/
theorem unary_agrees_with_stream_dead_letter :
    let s := Run.final step start (setup deadLetterOptions)
    ∃ sub, SubscriptionStore.get s.kv "projects/p/subscriptions/subA" = .ok sub ∧
      SameDelivery (PubSubService.pull "projects/p/subscriptions/subA" 10 0 s)
        (freshStreamLease "projects/p/subscriptions/subA" sub.ackDeadlineSecs 0 0 0 s) := by
  intro s
  have hchecks : (SubscriptionStore.get s.kv "projects/p/subscriptions/subA").toOption.any
      (fun sub => !decide (sub.detached ∨ sub.topic = deletedTopic) &&
        decide ((leasableCount s sub 0 : Int) ≤ 10) && unaryMeetsStream s sub 10 0) = true := by
    decide +kernel
  cases hsub : SubscriptionStore.get s.kv "projects/p/subscriptions/subA" with
  | error e =>
    rw [hsub] at hchecks
    cases hchecks
  | ok sub =>
    have hsome : (Except.ok sub : Except Error SubscriptionRecord).toOption = some sub := rfl
    simp only [hsub, hsome, Option.any_some, Bool.and_eq_true, Bool.not_eq_true',
      decide_eq_false_iff_not, decide_eq_true_eq] at hchecks
    obtain ⟨⟨hatt, hcount⟩, hmeets⟩ := hchecks
    exact ⟨sub, rfl, (unary_agrees_with_stream_iff hsub hatt (by decide) hcount le_rfl
      le_rfl).1 hmeets⟩

/-- Without one, only the stream shows that it is the first attempt. -/
theorem unary_disagrees_with_stream :
    ¬ ∀ (is : List Input) (name : String) (sub : SubscriptionRecord) (maxMessages nowMs : Int),
      SubscriptionStore.get (Run.final step start is).kv name = .ok sub →
      ¬ (sub.detached ∨ sub.topic = deletedTopic) → maxMessages ≤ 1000 →
      (leasableCount (Run.final step start is) sub nowMs : Int) ≤ maxMessages →
      SameDelivery (PubSubService.pull name maxMessages nowMs (Run.final step start is))
        (freshStreamLease name sub.ackDeadlineSecs 0 0 nowMs (Run.final step start is)) := by
  intro h
  have hagree := h (setup {}) "projects/p/subscriptions/subA"
  have hshown : (replyOf (PubSubService.pull "projects/p/subscriptions/subA" 10 0
      (Run.final step start (setup {})))).toOption.map (List.map PulledMessage.deliveryAttempt) =
      some [0] := by
    decide +kernel
  have hchecks : (SubscriptionStore.get (Run.final step start (setup {})).kv
      "projects/p/subscriptions/subA").toOption.any
      (fun sub => !decide (sub.detached ∨ sub.topic = deletedTopic) &&
        decide ((leasableCount (Run.final step start (setup {})) sub 0 : Int) ≤ 10) &&
        decide ((replyOf (freshStreamLease "projects/p/subscriptions/subA" sub.ackDeadlineSecs
          0 0 0 (Run.final step start (setup {})))).toOption.map
            (List.map PulledMessage.deliveryAttempt) = some [1])) = true := by
    decide +kernel
  generalize Run.final step start (setup {}) = s at hagree hshown hchecks
  cases hsub : SubscriptionStore.get s.kv "projects/p/subscriptions/subA" with
  | error e =>
    rw [hsub] at hchecks
    cases hchecks
  | ok sub =>
    have hsome : (Except.ok sub : Except Error SubscriptionRecord).toOption = some sub := rfl
    simp only [hsub, hsome, Option.any_some, Bool.and_eq_true, Bool.not_eq_true',
      decide_eq_false_iff_not, decide_eq_true_eq] at hchecks
    obtain ⟨⟨hatt, hcount⟩, hstream⟩ := hchecks
    have hreply := (hagree sub 10 0 hsub hatt (by decide) hcount).1
    rw [hreply, hstream] at hshown
    cases hshown

end Calls

end OpenPubusb
