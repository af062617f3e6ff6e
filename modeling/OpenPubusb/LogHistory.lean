import OpenPubusb.Deliveries
import OpenPubusb.LogSteps

/-! The logs of the topics over a whole run. Rows are only added above the tail, only the
retention sweep takes rows away, and every row was published or is the copy of one that
was: what a subscription is handed is what somebody published. -/

namespace OpenPubusb

open Hoare

/-- The logs of `kv'` are those of `kv` with rows added above their tails, each of which is
one that `P` allows. -/
structure Grows (P : Nat → Nat → MessageRecord → Prop) (kv kv' : Kv) : Prop where
  tail : ∀ topicId, TopicStore.currentTail kv topicId ≤ TopicStore.currentTail kv' topicId
  kept : ∀ {topicId seq}, seq ≤ TopicStore.currentTail kv topicId →
    kv'.msg.get ⟨topicId, seq⟩ = kv.msg.get ⟨topicId, seq⟩
  added : ∀ {topicId seq m}, kv'.msg.get ⟨topicId, seq⟩ = some m →
    kv.msg.get ⟨topicId, seq⟩ = some m ∨
      TopicStore.currentTail kv topicId < seq ∧ P topicId seq m

section Growth

variable {P P' : Nat → Nat → MessageRecord → Prop} {kv kv' kv'' : Kv}

theorem grows_of_eq (hmsg : kv'.msg = kv.msg) (hseq : kv'.topicSeq = kv.topicSeq) :
    Grows P kv kv' := by
  refine ⟨fun t => ?_, fun _ => by rw [hmsg], fun h => Or.inl (hmsg ▸ h)⟩
  rw [TopicStore.currentTail, TopicStore.currentTail, hseq]

theorem Grows.trans (h : Grows P kv kv') (h' : Grows P kv' kv'') : Grows P kv kv'' := by
  refine ⟨fun t => (h.tail t).trans (h'.tail t), fun {t q} hq => ?_, fun {t q m} hm => ?_⟩
  · rw [h'.kept (hq.trans (h.tail t)), h.kept hq]
  · rcases h'.added hm with hm' | ⟨hq, hp⟩
    · exact h.added hm'
    · exact Or.inr ⟨(h.tail t).trans_lt hq, hp⟩

theorem Grows.imp (h : Grows P kv kv') (hp : ∀ t q m, P t q m → P' t q m) : Grows P' kv kv' :=
  ⟨h.tail, h.kept, fun hm => (h.added hm).imp_right fun hq => ⟨hq.1, hp _ _ _ hq.2⟩⟩

instance : RowFrame (Grows P) where
  refl _ := grows_of_eq rfl rfl
  trans h h' := h.trans h'
  dlv _ _ _ := grows_of_eq rfl rfl

instance : CursorFrame (Grows P) where
  cursor _ _ _ := grows_of_eq rfl rfl

instance : TouchFrame (Grows P) where
  touch := keeps_touch_of (fun _ _ => grows_of_eq rfl rfl) fun _ _ => grows_of_eq rfl rfl

theorem grows_counted (kv : Kv) (topicId w : Nat) : Grows P kv (kv.counted topicId w) :=
  ⟨currentTail_le_counted kv topicId w, fun _ => rfl, Or.inl⟩

theorem grows_stored {topicId : Nat} {m : MessageRecord} (w : Nat)
    (hp : P topicId (TopicStore.currentTail kv topicId + 1) m) :
    Grows P kv (kv.stored topicId w m) := by
  refine ⟨(extended_stored kv topicId w m).tail, (extended_stored kv topicId w m).kept _ _,
    fun {t q x} hx => ?_⟩
  simp only [Kv.stored, SortedMap.get_insert, RowKey.mk.injEq] at hx
  split_ifs at hx with hk
  · cases hx
    rw [hk.1, hk.2]
    exact Or.inr ⟨Nat.lt_succ_self _, hp⟩
  · exact Or.inl hx

end Growth

section Append

variable {topicId : Nat} {nowMs expireAtMs : Int}

/-- The row is the one of a message of the batch, under the seq that was answered for it. -/
def FromBatch (topicId : Nat) (nowMs expireAtMs : Int) (messages : List PublishMessage)
    (seqs : List Nat) (t q : Nat) (m : MessageRecord) : Prop :=
  t = topicId ∧ ∃ pm, (q, pm) ∈ seqs.zip messages ∧ m = TopicStore.record pm nowMs expireAtMs

theorem ensures_appendAll_grows (messages : List PublishMessage) (kv : Kv) :
    Ensures (TopicStore.appendAll topicId nowMs expireAtMs messages) kv
      (fun seqs kv' => Grows (FromBatch topicId nowMs expireAtMs messages seqs) kv kv')
      (fun _ kv' => Grows (fun _ _ m => ∃ pm ∈ messages, m = TopicStore.record pm nowMs expireAtMs)
        kv kv') := by
  induction messages generalizing kv with
  | nil => exact grows_of_eq rfl rfl
  | cons pm pms ih =>
    simp only [TopicStore.appendAll, TopicStore.nextSeq, putTopicSeq, putMsg, ensures_bind,
      ensures_estateGet, ensures_kvWrite, ensures_pure]
    refine ⟨fun _ => ⟨fun _ => ?_, fun _ => grows_counted kv topicId _⟩,
      fun _ => grows_of_eq rfl rfl⟩
    refine (ih (kv.stored topicId (kv.writes + 1 + 1) _)).mono (fun seqs kv' h => ?_)
      (fun _ kv' h => ?_)
    · have hfirst : Grows (FromBatch topicId nowMs expireAtMs (pm :: pms)
          ((TopicStore.currentTail kv topicId + 1) :: seqs)) kv
          (kv.stored topicId (kv.writes + 1 + 1) (TopicStore.record pm nowMs expireAtMs)) :=
        grows_stored _ ⟨rfl, pm, List.mem_cons_self, rfl⟩
      refine hfirst.trans (h.imp fun t q m hp => ?_)
      obtain ⟨ht, x, hx, hm⟩ := hp
      exact ⟨ht, x, List.mem_cons_of_mem _ hx, hm⟩
    · have hfirst : Grows (fun _ _ m => ∃ x ∈ pm :: pms, m = TopicStore.record x nowMs expireAtMs)
          kv (kv.stored topicId (kv.writes + 1 + 1) (TopicStore.record pm nowMs expireAtMs)) :=
        grows_stored _ ⟨pm, List.mem_cons_self, rfl⟩
      refine hfirst.trans (h.imp fun _ _ m hp => ?_)
      exact hp.imp fun _ hx => ⟨List.mem_cons_of_mem _ hx.1, hx.2⟩

theorem ensures_append_grows (messages : List PublishMessage) (retentionSecs : Int) (kv : Kv) :
    Ensures (TopicStore.append topicId messages nowMs retentionSecs) kv
      (fun seqs kv' => Grows (FromBatch topicId nowMs (TopicStore.expireAt nowMs retentionSecs)
        messages seqs) kv kv')
      (fun _ kv' => Grows (fun _ _ m => ∃ pm ∈ messages,
        m = TopicStore.record pm nowMs (TopicStore.expireAt nowMs retentionSecs)) kv kv') := by
  simp only [TopicStore.append, ensures_bind, ensures_liftResult]
  exact ⟨fun _ _ => ensures_appendAll_grows messages kv, fun _ _ => grows_of_eq rfl rfl⟩

end Append

section Copies

/-- The row is a dead-letter copy, made at `nowMs`, of a message of `topicId`. -/
def CopyOf (kv : Kv) (topicId : Nat) (nowMs : Int) (m : MessageRecord) : Prop :=
  ∃ seq x policy n expireAtMs, kv.msg.get ⟨topicId, seq⟩ = some x ∧
    m = TopicStore.record (deadLetterCopy x policy n) nowMs expireAtMs

variable {P : Nat → Nat → MessageRecord → Prop} {a : LeaseArgs} {m : MessageRecord}

def AllowsCopies (P : Nat → Nat → MessageRecord → Prop) (nowMs : Int) (m : MessageRecord) : Prop :=
  ∀ t q policy n expireAtMs,
    P t q (TopicStore.record (deadLetterCopy m policy n) nowMs expireAtMs)

theorem keeps_forward_grows {nowMs : Int} (h : AllowsCopies P nowMs m) (subId seq : Nat)
    (topicName : String) (policy : ReclaimPolicy) (n : Nat) :
    Keeps (OnStore (Grows P)) (forwardToDeadLetterTopic subId seq topicName m policy n nowMs) := by
  refine Keeps.bind Keeps.get fun s => ?_
  cases TopicStore.get s.kv topicName with
  | error e =>
    cases e with
    | notFound r => exact Keeps.pure _
    | _ => exact Keeps.throw _
  | ok dlq =>
    refine Keeps.bind (keeps_onStore fun kv => ?_) fun _ => ?_
    · refine (ensures_append_grows [deadLetterCopy m policy n] _ kv).mono (fun seqs kv' hg => ?_)
        (fun _ kv' hg => ?_)
      · refine hg.imp fun t q x hx => ?_
        obtain ⟨_, pm, hpm, rfl⟩ := hx
        have hcopy := (List.of_mem_zip hpm).2
        rw [List.mem_singleton.mp hcopy]
        exact h t q policy n _
      · refine hg.imp fun t q x hx => ?_
        obtain ⟨pm, hpm, rfl⟩ := hx
        rw [List.mem_singleton.mp hpm]
        exact h t q policy n _
    · exact Keeps.bind (keeps_memory fun _ => rfl) fun _ => Keeps.pure _

theorem keeps_grant_grows (sc : Scan) (seq n : Nat) :
    Keeps (OnStore (Grows P)) (grant a sc seq m n) := by
  refine Keeps.bind Keeps.get fun _ => Keeps.bind (keeps_memory fun _ => rfl) fun _ => ?_
  exact Keeps.bind (keeps_onStore (keeps_putDlv _ _ _)) fun _ => Keeps.pure _

theorem keeps_settle_grows (sc : Scan) (seq n : Nat) (forwarded : Bool) :
    Keeps (OnStore (Grows P)) (settle a sc seq m n forwarded) := by
  cases forwarded with
  | true => exact Keeps.bind (keeps_onStore (keeps_deleteDlv _ _)) fun _ => Keeps.pure _
  | false => exact keeps_grant_grows sc seq n

theorem keeps_reclaim_grows (h : AllowsCopies P a.nowMs m) (sc : Scan) (seq : Nat)
    (deadlineMs : Int) (n : Nat) (live : Bool) :
    Keeps (OnStore (Grows P)) (reclaim a sc seq m deadlineMs n live) := by
  refine Keeps.bind Keeps.get fun s => Keeps.ite (fun _ => Keeps.pure _) fun _ => ?_
  refine Keeps.bind ?_ fun _ => Keeps.bind ?_ fun _ => keeps_settle_grows sc seq n _
  · exact Keeps.ite (fun _ => keeps_forward_grows h _ _ _ _ _) fun _ => Keeps.pure _
  · exact Keeps.ite (fun _ => keeps_memory fun _ => rfl) fun _ => Keeps.pure _

theorem keeps_leaseOne_grows (h : AllowsCopies P a.nowMs m) (sc : Scan) (seq : Nat) :
    Keeps (OnStore (Grows P)) (leaseOne a sc seq m) := by
  refine Keeps.ite (fun _ => Keeps.pure _) fun _ => Keeps.ite (fun _ => Keeps.pure _) fun _ => ?_
  refine Keeps.bind Keeps.get fun s => ?_
  cases s.leases.get a.subId seq with
  | some lease =>
    exact Keeps.ite (fun _ => Keeps.pure _) fun _ => keeps_reclaim_grows h sc seq _ _ _
  | none =>
    cases s.kv.dlv.get ⟨a.subId, seq⟩ with
    | some row => exact keeps_reclaim_grows h sc seq _ _ _
    | none => exact keeps_grant_grows sc seq 0

theorem keeps_leaseScan_grows {rows : List (Nat × MessageRecord)}
    (h : ∀ row ∈ rows, AllowsCopies P a.nowMs row.2) (sc : Scan) :
    Keeps (OnStore (Grows P)) (leaseScan a sc rows) := by
  induction rows generalizing sc with
  | nil => exact Keeps.pure _
  | cons row rows ih =>
    refine Keeps.ite (fun _ => Keeps.pure _) fun _ => ?_
    refine Keeps.bind (keeps_leaseOne_grows (h row List.mem_cons_self) sc row.1) fun sc' => ?_
    exact ih (fun r hr => h r (List.mem_cons_of_mem _ hr)) sc'

theorem ensures_leaseNext_grows (s : Engine) (subId topicId : Nat)
    (maxMessages nowMs ackDeadlineSecs : Int) :
    Ensures (leaseNext subId topicId maxMessages nowMs ackDeadlineSecs) s
      (fun _ t => Grows (fun _ _ => CopyOf s.kv topicId nowMs) s.kv t.kv)
      (fun _ t => Grows (fun _ _ => CopyOf s.kv topicId nowMs) s.kv t.kv) := by
  have hrows : ∀ row ∈ scanPrefix s.kv.msg topicId,
      AllowsCopies (fun _ _ => CopyOf s.kv topicId nowMs) nowMs row.2 := by
    intro row hrow _ _ policy n expireAtMs
    exact ⟨row.1, row.2, policy, n, expireAtMs, mem_scanPrefix.mp hrow, rfl⟩
  have hlocked : ∀ (filters : SortedMap Nat (Option Expr)) (f : Option Expr) (c : CursorRecord),
      Ensures (leaseNextLocked ⟨subId, topicId, maxMessages.toNat, nowMs, ackDeadlineSecs, f⟩ c)
        { s with filters := filters }
        (fun _ t => Grows (fun _ _ => CopyOf s.kv topicId nowMs) s.kv t.kv)
        (fun _ t => Grows (fun _ _ => CopyOf s.kv topicId nowMs) s.kv t.kv) := by
    intro filters f c
    simp only [leaseNextLocked, ensures_bind, ensures_get, ensures_pure]
    refine (keeps_leaseScan_grows
      (a := ⟨subId, topicId, maxMessages.toNat, nowMs, ackDeadlineSecs, f⟩) hrows _ _).mono
      (fun sc t h => ?_) (fun _ _ h => h)
    have hsave : Keeps (OnStore (Grows fun _ _ => CopyOf s.kv topicId nowMs))
        (saveChanged subId (sc.cursor, sc.cursorChanged)) := by
      refine Keeps.ite (fun _ => keeps_onStore ?_) fun _ => Keeps.pure _
      exact keeps_kvWrite RowFrame.tick fun _ => grows_of_eq rfl rfl
    exact (hsave t).mono (fun _ _ h' => h.trans h') (fun _ _ h' => h.trans h')
  have hrefl : Grows (fun _ _ => CopyOf s.kv topicId nowMs) s.kv s.kv := grows_of_eq rfl rfl
  simp only [leaseNext, loadCursor, ensures_ite, ensures_pure, ensures_bind, ensures_get]
  refine ⟨fun _ => hrefl, fun _ => ?_⟩
  cases s.kv.cursors.get subId with
  | none => exact hrefl
  | some c =>
    simp only [ensures_pure, compiledFilter, ensures_bind, ensures_get]
    cases s.filters.get subId with
    | some f => exact hlocked s.filters f c
    | none =>
      simp only [ensures_bind, ensures_modify, ensures_pure]
      exact hlocked _ _ c

end Copies

/-- Where a row comes from that `tr` added: a publish was answered with its seq, or a lease
call copied a message of a log. -/
inductive Source (tr : Transition) (topicId seq : Nat) (m : MessageRecord) : Prop where
  | published {topic : String} {messages : List PublishMessage} {seqs : List Nat}
      {pm : PublishMessage} {expireAtMs : Int} (op : tr.input.op = .publish topic messages)
      (reply : tr.reply = .published topicId seqs) (mem : (seq, pm) ∈ seqs.zip messages)
      (row : m = TopicStore.record pm tr.input.nowMs expireAtMs)
  | copied {source : Nat} (lease : tr.input.op.isLease = true)
      (copy : CopyOf tr.pre.kv source tr.input.nowMs m)

/-- What one transition does to the logs. -/
structure LogStep (tr : Transition) : Prop where
  tail : ∀ topicId, TopicStore.currentTail tr.pre.kv topicId ≤
    TopicStore.currentTail tr.post.kv topicId
  kept : ∀ {topicId seq m}, tr.pre.kv.msg.get ⟨topicId, seq⟩ = some m →
    tr.post.kv.msg.get ⟨topicId, seq⟩ = some m ∨
      tr.input.op = .sweepRetention ∧ m.expireAtMs ≤ tr.input.nowMs
  added : ∀ {topicId seq m}, tr.post.kv.msg.get ⟨topicId, seq⟩ = some m →
    tr.pre.kv.msg.get ⟨topicId, seq⟩ = some m ∨
      TopicStore.currentTail tr.pre.kv topicId < seq ∧ Source tr topicId seq m

section Steps

variable {s : Engine} {i : Input}

theorem Grows.logStep (hwf : s.WellFormed)
    (h : Grows (Source (Run.transition step s i)) s.kv (step s i).2.kv) :
    LogStep (Run.transition step s i) :=
  ⟨h.tail, fun hm => Or.inl ((h.kept (hwf.kv.log hm)).trans hm), fun hm => h.added hm⟩

theorem step_publish_grows (hwf : s.WellFormed) {topic : String} {messages : List PublishMessage}
    (hop : i.op = .publish topic messages) :
    Grows (Source (Run.transition step s i)) s.kv (step s i).2.kv := by
  have h : Ensures (perform i.nowMs (.publish topic messages)) s
      (fun r t => ∃ topicId seqs expireAtMs, r = .published topicId seqs ∧
        Grows (FromBatch topicId i.nowMs expireAtMs messages seqs) s.kv t.kv)
      (fun _ t => t.kv = s.kv) := by
    simp only [perform, PubSubService.publish, ensures_bind, ensures_onKv, ensures_pure,
      ensures_get, ensures_liftResult]
    refine ⟨fun r _ => ?_, fun _ _ => trivial⟩
    refine ((ensures_append_grows messages _ s.kv).and (ensures_append ..)).mono
      (fun seqs kv' hkv => ⟨r.id, seqs, _, rfl, hkv.1⟩) (fun _ kv' hkv => ?_)
    rcases hkv.2.2.2 with ⟨rfl, _⟩ | ⟨n, hn⟩
    · rfl
    · rw [hwf.healthy n] at hn
      cases hn
  have hr : (step s i).1 = (Run.transition step s i).reply := rfl
  unfold step at hr ⊢
  rw [hop] at hr ⊢
  cases hp : perform i.nowMs (.publish topic messages) s with
  | ok r t =>
    obtain ⟨topicId, seqs, expireAtMs, rfl, hg⟩ := h.of_ok hp
    refine hg.imp fun t q m hm => ?_
    obtain ⟨rfl, pm, hmem, hrow⟩ := hm
    rw [hp] at hr
    exact .published hop hr.symm hmem hrow
  | error e t => exact grows_of_eq (by rw [h.of_error hp]) (by rw [h.of_error hp])

theorem step_lease_grows (hop : i.op.isLease = true) :
    Grows (Source (Run.transition step s i)) s.kv (step s i).2.kv := by
  have hcopied : ∀ {source : Nat} {kv : Kv},
      Grows (fun _ _ => CopyOf s.kv source i.nowMs) s.kv kv →
      Grows (Source (Run.transition step s i)) s.kv kv :=
    fun h => h.imp fun _ _ _ hm => .copied hop hm
  have hrefl : Grows (Source (Run.transition step s i)) s.kv s.kv := grows_of_eq rfl rfl
  refine ensures_step (P := fun t => Grows (Source (Run.transition step s i)) s.kv t.kv) ?_
  cases hi : i.op with
  | pull name n =>
    simp only [perform, PubSubService.pullDelivered, PubSubService.attached, ensures_bind,
      ensures_pure, ensures_get, ensures_liftResult, ensures_ite, ensures_throw]
    refine ⟨fun _ _ => ⟨fun sub _ => ⟨fun _ => hrefl, fun _ => ?_⟩, fun _ _ => hrefl⟩,
      fun _ _ => hrefl⟩
    refine (ensures_leaseNext_grows s sub.id sub.topicId n i.nowMs _).mono (fun _ u h => ?_)
      (fun _ _ h => hcopied h)
    have htouch : Keeps (OnStore (Grows (Source (Run.transition step s i))))
        (PubSubService.touch sub.id i.nowMs) := keeps_serviceTouch _ _
    exact (htouch u).mono (fun _ _ ht => (hcopied h).trans ht) (fun _ _ ht => (hcopied h).trans ht)
  | leaseForStream sid =>
    simp only [perform, leaseForStream, ensures_bind, ensures_get, ensures_pure]
    cases s.streams.info sid with
    | none => exact hrefl
    | some info =>
      simp only [ensures_ite, ensures_pure, ensures_bind, ensures_modify]
      refine ⟨fun _ => hrefl, fun _ => ?_⟩
      exact (ensures_leaseNext_grows s info.subId info.topicId _ i.nowMs _).mono
        (fun _ _ h => hcopied h) (fun _ _ h => hcopied h)
  | _ =>
    rw [hi] at hop
    cases hop

theorem step_log (hwf : s.WellFormed) (hc : Consistent s.kv) :
    LogStep (Run.transition step s i) := by
  by_cases happ : i.op.appends = true
  · cases hop : i.op with
    | publish topic messages => exact (step_publish_grows hwf hop).logStep hwf
    | pull => exact (step_lease_grows (by rw [hop]; rfl)).logStep hwf
    | leaseForStream => exact (step_lease_grows (by rw [hop]; rfl)).logStep hwf
    | sweepRetention =>
      obtain ⟨kv₁, hexp, hclear, hpruned, _, _⟩ := step_swept hwf hc hop
      have hmsg : (step s i).2.kv.msg = kv₁.msg := hpruned.msg
      refine ⟨fun t => ?_, fun {t q m} hm => ?_, fun {t q m} hm => ?_⟩
      · change TopicStore.currentTail s.kv t ≤ TopicStore.currentTail (step s i).2.kv t
        rw [TopicStore.currentTail, TopicStore.currentTail, hpruned.topicSeq, hexp.topicSeq]
      · change (step s i).2.kv.msg.get _ = _ ∨ i.op = _ ∧ m.expireAtMs ≤ i.nowMs
        rw [hmsg]
        exact (hclear.msg hm).imp_right fun h => ⟨hop, h.2⟩
      · change (step s i).2.kv.msg.get _ = _ at hm
        rw [hmsg] at hm
        cases hold : s.kv.msg.get ⟨t, q⟩ with
        | none =>
          rw [hclear.gone hold] at hm
          cases hm
        | some x =>
          rcases hclear.msg hold with hx | hx
          · rw [hx] at hm
            exact Or.inl (hold.trans hm)
          · rw [hx.1] at hm
            cases hm
    | _ =>
      rw [hop] at happ
      cases happ
  · obtain ⟨hmsg, hseq⟩ := (step_path i hc hwf.healthy).log_eq (by simpa using happ)
    exact (grows_of_eq hmsg hseq).logStep hwf

end Steps

section Runs

variable {is js : List Input} {topicId seq : Nat} {m : MessageRecord}

theorem logStep_final (is : List Input) (i : Input) :
    LogStep (Run.transition step (Run.final step start is) i) :=
  step_log (wellFormed_final is) (consistent_final is).1

theorem tail_le_final (is js : List Input) (topicId : Nat) :
    TopicStore.currentTail (Run.final step start is).kv topicId ≤
      TopicStore.currentTail (Run.final step start (is ++ js)).kv topicId := by
  induction js using List.reverseRecOn with
  | nil => rw [List.append_nil]
  | append_singleton js i ih =>
    refine ih.trans ((logStep_final (is ++ js) i).tail topicId |>.trans (le_of_eq ?_))
    rw [← List.append_assoc, Run.final_append start (is ++ js) [i]]
    rfl

/-- Over any run the log is append-only: tails never move back, no row is written again, no
seq is used twice, and only the retention sweep takes away rows, those that have expired. -/
theorem log_append_only (is js : List Input) (topicId : Nat) :
    let s := Run.final step start is
    let t := Run.final step start (is ++ js)
    TopicStore.currentTail s.kv topicId ≤ TopicStore.currentTail t.kv topicId ∧
      (∀ seq m, s.kv.msg.get ⟨topicId, seq⟩ = some m → t.kv.msg.get ⟨topicId, seq⟩ = some m ∨
        t.kv.msg.get ⟨topicId, seq⟩ = none ∧ ∃ tr ∈ Run.trace step s js,
          tr.input.op = .sweepRetention ∧ m.expireAtMs ≤ tr.input.nowMs) ∧
      ∀ seq m, t.kv.msg.get ⟨topicId, seq⟩ = some m →
        s.kv.msg.get ⟨topicId, seq⟩ = some m ∨ TopicStore.currentTail s.kv topicId < seq := by
  intro s t
  refine ⟨tail_le_final is js topicId, ?_⟩
  induction js using List.reverseRecOn with
  | nil =>
    have hst : t = s := congrArg (Run.final step start) (List.append_nil is)
    rw [hst]
    exact ⟨fun _ _ h => Or.inl h, fun _ _ h => Or.inl h⟩
  | append_singleton js i ih =>
    obtain ⟨hkept, hadded⟩ := ih
    have htail := tail_le_final is js topicId
    have hstep := logStep_final (is ++ js) i
    have ht : t = (step (Run.final step start (is ++ js)) i).2 := by
      change Run.final step start (is ++ (js ++ [i])) = _
      rw [← List.append_assoc, Run.final_append start (is ++ js) [i]]
      rfl
    have hold : ∀ {q x}, t.kv.msg.get ⟨topicId, q⟩ = some x →
        s.kv.msg.get ⟨topicId, q⟩ = some x ∨ TopicStore.currentTail s.kv topicId < q := by
      intro q x hx
      rw [ht] at hx
      rcases hstep.added hx with hx | ⟨hq, _⟩
      · exact hadded _ _ hx
      · exact Or.inr (htail.trans_lt hq)
    have hmem : ∀ {tr}, tr ∈ Run.trace step s js → tr ∈ Run.trace step s (js ++ [i]) := by
      intro tr htr
      rw [Run.trace_append]
      exact List.mem_append_left _ htr
    refine ⟨fun q x hx => ?_, fun q x hx => hold hx⟩
    · have hsame : ∀ y, t.kv.msg.get ⟨topicId, q⟩ = some y → y = x := by
        intro y hy
        rcases hold hy with hy | hq
        · exact Option.some.inj (hy.symm.trans hx)
        · have hle : q ≤ TopicStore.currentTail s.kv topicId := (wellFormed_final is).kv.log hx
          omega
      have hlast : Run.transition step (Run.final step start (is ++ js)) i ∈
          Run.trace step s (js ++ [i]) := by
        rw [Run.final_append]
        exact Run.mem_trace_append s js i
      cases hy : t.kv.msg.get ⟨topicId, q⟩ with
      | some y => exact Or.inl (congrArg some (hsame y hy))
      | none =>
        refine Or.inr ⟨rfl, ?_⟩
        rcases hkept q x hx with hmid | ⟨_, tr, htr, hexp⟩
        · rcases hstep.kept hmid with hpost | hexp
          · rw [ht] at hy
            have hnone := hpost.symm.trans hy
            cases hnone
          · exact ⟨_, hlast, hexp⟩
        · exact ⟨tr, hmem htr, hexp⟩

/-- How the row got into the log, by the transitions `trs`: it was published, or it is the
copy of a row that got there before. -/
inductive Written (trs : List Transition) : Nat → Nat → MessageRecord → Prop where
  | published {tr : Transition} {topicId seq : Nat} {topic : String}
      {messages : List PublishMessage} {seqs : List Nat} {pm : PublishMessage} {expireAtMs : Int}
      (mem : tr ∈ trs) (op : tr.input.op = .publish topic messages)
      (reply : tr.reply = .published topicId seqs) (pair : (seq, pm) ∈ seqs.zip messages) :
      Written trs topicId seq (TopicStore.record pm tr.input.nowMs expireAtMs)
  | copied {tr : Transition} {source copied topicId seq : Nat} {x : MessageRecord}
      {policy : ReclaimPolicy} {n : Nat} {expireAtMs : Int} (mem : tr ∈ trs)
      (lease : tr.input.op.isLease = true) (before : Written trs source copied x) :
      Written trs topicId seq
        (TopicStore.record (deadLetterCopy x policy n) tr.input.nowMs expireAtMs)

theorem Written.mono {trs trs' : List Transition} (h : Written trs topicId seq m)
    (hsub : ∀ tr ∈ trs, tr ∈ trs') : Written trs' topicId seq m := by
  induction h with
  | published mem op reply pair => exact .published (hsub _ mem) op reply pair
  | copied mem lease _ ih => exact .copied (hsub _ mem) lease ih

theorem Written.content {trs : List Transition} (h : Written trs topicId seq m) :
    ∃ tr ∈ trs, ∃ topic messages t seqs pm, tr.input.op = .publish topic messages ∧
      tr.reply = .published t seqs ∧ pm ∈ messages ∧ m.payload = pm.data ∧
      m.orderingKey = pm.orderingKey := by
  induction h with
  | published mem op reply pair =>
    exact ⟨_, mem, _, _, _, _, _, op, reply, (List.of_mem_zip pair).2, rfl, rfl⟩
  | copied _ _ _ ih => exact ih

theorem written_final (is : List Input)
    (hm : (Run.final step start is).kv.msg.get ⟨topicId, seq⟩ = some m) :
    Written (history is) topicId seq m := by
  induction is using List.reverseRecOn generalizing topicId seq m with
  | nil => cases hm
  | append_singleton is i ih =>
    have happ : history (is ++ [i]) =
        history is ++ [Run.transition step (Run.final step start is) i] :=
      Run.trace_append start is [i]
    have hlast : Run.transition step (Run.final step start is) i ∈ history (is ++ [i]) :=
      Run.mem_trace_append start is i
    have hmono : ∀ {t q x}, Written (history is) t q x → Written (history (is ++ [i])) t q x := by
      intro t q x h
      refine h.mono fun tr htr => ?_
      rw [happ]
      exact List.mem_append_left _ htr
    rw [Run.final_append] at hm
    rcases (logStep_final is i).added hm with hold | ⟨_, hsource⟩
    · exact hmono (ih hold)
    · cases hsource with
      | published op reply pair hrow =>
        rw [hrow]
        exact .published hlast op reply pair
      | copied lease copy =>
        obtain ⟨q, x, policy, n, e, hx, hrow⟩ := copy
        rw [hrow]
        exact .copied hlast lease (hmono (ih hx))

/-- What a subscription is handed is a row of its topic's log that a publish before it put
there, or a dead-letter copy of one: nothing is made up, and nothing is changed on the way. -/
theorem delivered_was_published {l l' : List Transition} {tr : Transition}
    (h : history is = l ++ tr :: l') {subId : Nat} {d : Delivered} (hd : Delivers tr subId seq d) :
    ∃ r, tr.pre.kv.subs.get subId = some r ∧ Written l r.topicId seq d.message ∧
      ∃ tr₀ ∈ l, ∃ topic messages t seqs pm, tr₀.input.op = .publish topic messages ∧
        tr₀.reply = .published t seqs ∧ pm ∈ messages ∧ d.message.payload = pm.data ∧
        d.message.orderingKey = pm.orderingKey := by
  have htr : tr ∈ history is := by
    rw [h]
    exact List.mem_append_right _ List.mem_cons_self
  obtain ⟨ds, hreply, hmem, rfl⟩ := hd
  rw [(transition_eq_of_mem htr).1] at hreply
  obtain ⟨a, u, hl⟩ := step_leased (wellFormed_pre htr) hreply
  obtain ⟨hp, hm, _⟩ := hl.done.delivered hmem
  rw [hl.sub] at hp
  obtain ⟨_, r, _, hr, _⟩ := Kv.pending_iff.mp hp
  obtain ⟨is₁, i, is₂, _, hl₁, hpre, _⟩ := Run.trace_eq_append h
  have hwritten : Written l r.topicId d.seq d.message := by
    rw [hl₁]
    refine written_final is₁ ?_
    rw [hl.topic r hr, ← hm, hpre]
    rfl
  exact ⟨r, hr, hwritten, hwritten.content⟩

/-- The first pull hands out what `setup` published. -/
theorem delivered_was_published_first : ∃ d r tr₀ topic messages t seqs pm,
    Delivers (Run.transition step (Run.final step start (setup {})) (pullA 0)) 2 1 d ∧
    (Run.final step start (setup {})).kv.subs.get 2 = some r ∧
    Written (history (setup {})) r.topicId 1 d.message ∧ tr₀ ∈ history (setup {}) ∧
    tr₀.input.op = .publish topic messages ∧ tr₀.reply = .published t seqs ∧ pm ∈ messages ∧
    d.message.payload = pm.data ∧ d.message.orderingKey = pm.orderingKey := by
  have hsome : (deliveryOf (Run.transition step (Run.final step start (setup {})) (pullA 0))
      2 1).isSome = true := by
    decide +kernel
  obtain ⟨d, hd⟩ := Option.isSome_iff_exists.mp hsome
  have hdelivers := delivers_of_deliveryOf hd
  have hsplit : history (setup {} ++ [pullA 0]) = history (setup {}) ++
      [Run.transition step (Run.final step start (setup {})) (pullA 0)] :=
    Run.trace_append start (setup {}) [pullA 0]
  obtain ⟨r, hr, hwritten, tr₀, hmem, topic, messages, t, seqs, pm, hpublish⟩ :=
    delivered_was_published hsplit hdelivers
  exact ⟨d, r, tr₀, topic, messages, t, seqs, pm, hdelivers, hr, hwritten, hmem, hpublish⟩

theorem published_numbers {s : Engine} {i : Input} {topic : String} {messages : List PublishMessage}
    {seqs : List Nat} (hop : i.op = .publish topic messages)
    (hr : (step s i).1 = .published topicId seqs) : ∀ q ∈ seqs,
      TopicStore.currentTail s.kv topicId < q ∧
        q ≤ TopicStore.currentTail (step s i).2.kv topicId := by
  have h : Ensures (perform i.nowMs (.publish topic messages)) s
      (fun r t => ∀ topicId seqs, r = .published topicId seqs → ∀ q ∈ seqs,
        TopicStore.currentTail s.kv topicId < q ∧ q ≤ TopicStore.currentTail t.kv topicId)
      (fun _ _ => True) := by
    simp only [perform, PubSubService.publish, ensures_bind, ensures_onKv, ensures_pure,
      ensures_get, ensures_liftResult]
    refine ⟨fun r _ => ?_, fun _ _ => trivial⟩
    refine (ensures_append ..).mono (fun seqs kv' hkv t qs heq q hq => ?_) (fun _ _ _ => trivial)
    cases heq
    rw [hkv.seqs_eq, List.mem_range'_1] at hq
    have htail : TopicStore.currentTail kv' r.id = _ := hkv.tail
    constructor
    · omega
    · omega
  unfold step at hr ⊢
  rw [hop] at hr ⊢
  cases hp : perform i.nowMs (.publish topic messages) s with
  | ok r t =>
    rw [hp] at hr
    exact h.of_ok hp topicId seqs hr
  | error e t =>
    rw [hp] at hr
    cases hr

/-- Of two publishes to a topic, the later one is answered with the larger ids, whatever
sweeps and restarts lie between them. -/
theorem message_ids_increase {l between l' : List Transition} {tr tr' : Transition}
    (h : history is = l ++ tr :: (between ++ tr' :: l')) {topic topic' : String}
    {messages messages' : List PublishMessage} {seqs seqs' : List Nat}
    (hop : tr.input.op = .publish topic messages) (hop' : tr'.input.op = .publish topic' messages')
    (hseqs : tr.reply = .published topicId seqs) (hseqs' : tr'.reply = .published topicId seqs') :
    ∀ q ∈ seqs, ∀ q' ∈ seqs', q < q' := by
  intro q hq q' hq'
  obtain ⟨is₀, is₁, hpost, hpre, _⟩ :=
    Run.between_of_mem h (List.mem_append_right _ List.mem_cons_self)
  have htr : tr ∈ history is := by
    rw [h]
    exact List.mem_append_right _ List.mem_cons_self
  have htr' : tr' ∈ history is := by
    rw [h]
    exact List.mem_append_right _
      (List.mem_cons_of_mem _ (List.mem_append_right _ List.mem_cons_self))
  rw [(transition_eq_of_mem htr).1] at hseqs
  rw [(transition_eq_of_mem htr').1] at hseqs'
  have hlast := (published_numbers hop hseqs q hq).2
  have hfirst := (published_numbers hop' hseqs' q' hq').1
  have htail := tail_le_final is₀ is₁ topicId
  rw [Run.final_append, ← hpost, ← hpre] at htail
  rw [← (transition_eq_of_mem htr).2] at hlast
  exact hlast.trans_lt (htail.trans_lt hfirst)

def Reply.publishedIds : Reply → Option (Nat × List Nat)
  | .published topicId seqs => some (topicId, seqs)
  | _ => none

theorem Reply.eq_published {r : Reply} {seqs : List Nat}
    (h : r.publishedIds = some (topicId, seqs)) : r = .published topicId seqs := by
  cases r with
  | published t qs =>
    cases h
    rfl
  | _ => cases h

def publishedOnce : List Input :=
  [⟨0, .createTopic "projects/p/topics/top1" ∅ none none false false⟩,
   ⟨0, .publish "projects/p/topics/top1" [⟨[1], ∅, ""⟩]⟩, ⟨5, .sweepRetention⟩, ⟨5, .restart⟩]

def publishMore : Input := ⟨5, .publish "projects/p/topics/top1" [⟨[2], ∅, ""⟩, ⟨[3], ∅, ""⟩]⟩

theorem message_ids_increase_restart : ∃ l between l' tr tr',
    history (publishedOnce ++ [publishMore]) = l ++ tr :: (between ++ tr' :: l') ∧
    tr.reply = .published 1 [1] ∧ tr'.reply = .published 1 [2, 3] ∧
    ∀ q ∈ [1], ∀ q' ∈ [2, 3], q < q' := by
  have hfirst : ((step (Run.final step start (publishedOnce.take 1))
      ⟨0, .publish "projects/p/topics/top1" [⟨[1], ∅, ""⟩]⟩).1).publishedIds = some (1, [1]) := by
    decide +kernel
  have hsecond : ((step (Run.final step start publishedOnce) publishMore).1).publishedIds =
      some (1, [2, 3]) := by
    decide +kernel
  have hreply : (Run.transition step (Run.final step start (publishedOnce.take 1))
      ⟨0, .publish "projects/p/topics/top1" [⟨[1], ∅, ""⟩]⟩).reply = .published 1 [1] :=
    Reply.eq_published hfirst
  have hreply' : (Run.transition step (Run.final step start publishedOnce) publishMore).reply =
      .published 1 [2, 3] :=
    Reply.eq_published hsecond
  have hsplit : history (publishedOnce ++ [publishMore]) =
      history (publishedOnce.take 1) ++
        Run.transition step (Run.final step start (publishedOnce.take 1))
          ⟨0, .publish "projects/p/topics/top1" [⟨[1], ∅, ""⟩]⟩ ::
        (Run.trace step (Run.final step start (publishedOnce.take 2)) (publishedOnce.drop 2) ++
          Run.transition step (Run.final step start publishedOnce) publishMore :: []) := rfl
  exact ⟨_, _, _, _, _, hsplit, hreply, hreply',
    message_ids_increase hsplit rfl rfl hreply hreply'⟩

end Runs

end OpenPubusb
