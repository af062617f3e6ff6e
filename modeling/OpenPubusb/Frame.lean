import OpenPubusb.Rows
import OpenPubusb.System

/-! What the delivery calls leave alone, on any store, whichever of its writes
fail: outside of the log and of the delivery rows they write one cursor, and that
one only moves on. -/

namespace OpenPubusb

open Hoare

/-- A relation between stores that does not look at the delivery rows. -/
class RowFrame (R : Kv → Kv → Prop) : Prop where
  refl : ∀ kv, R kv kv
  trans : ∀ {kv kv' kv''}, R kv kv' → R kv' kv'' → R kv kv''
  dlv : ∀ kv dlv w, R kv { kv with dlv := dlv, writes := w }

/-- One that does not look at the log either. -/
class LogFrame (R : Kv → Kv → Prop) : Prop extends RowFrame R where
  log : ∀ kv topicSeq msg w, R kv { kv with topicSeq := topicSeq, msg := msg, writes := w }

/-- One that allows an append at `nowMs` to the log of a topic. -/
class AppendFrame (nowMs : Int) (R : Kv → Kv → Prop) : Prop extends RowFrame R where
  append : ∀ topicId ms retentionSecs, Keeps R (TopicStore.append topicId ms nowMs retentionSecs)

/-- One that allows a cursor to move on. -/
class CursorFrame (R : Kv → Kv → Prop) : Prop extends RowFrame R where
  cursor : ∀ {kv id c c'} w, kv.cursors.get id = some c → c.Advanced c' →
    R kv { kv with cursors := kv.cursors.insert id c', writes := w }

/-- One that allows the activity time of a subscription to be written. -/
class TouchFrame (R : Kv → Kv → Prop) : Prop extends RowFrame R where
  touch : ∀ subId nowMs, Keeps R (SubscriptionStore.touch subId nowMs)

section Data

variable {R : Kv → Kv → Prop}

instance [RowFrame R] : Std.Refl R := ⟨RowFrame.refl⟩

instance [RowFrame R] : IsTrans Kv R := ⟨fun _ _ _ h h' => RowFrame.trans h h'⟩

theorem RowFrame.tick [RowFrame R] (kv : Kv) : R kv kv.tick :=
  RowFrame.dlv kv kv.dlv (kv.writes + 1)

def OnStore (R : Kv → Kv → Prop) (s t : Engine) : Prop := R s.kv t.kv

instance [Std.Refl R] : Std.Refl (OnStore R) := ⟨fun s => Std.Refl.refl s.kv⟩

instance [IsTrans Kv R] : IsTrans Engine (OnStore R) := ⟨fun _ _ _ h h' => trans_of R h h'⟩

theorem keeps_onStore {α : Type} {m : KvM α} (h : Keeps R m) : Keeps (OnStore R) (onKv m) :=
  fun s => ensures_focus.mpr (h s.kv)

theorem keeps_memory [Std.Refl R] {f : Engine → Engine} (h : ∀ s, (f s).kv = s.kv) :
    Keeps (OnStore R) (modify f : EngineM Unit) :=
  Keeps.modify fun s => by
    unfold OnStore
    rw [h s]
    exact Std.Refl.refl _

variable [RowFrame R]

theorem keeps_putDlv (subId seq : Nat) (r : DeliveryRecord) : Keeps R (putDlv subId seq r) :=
  keeps_kvWrite RowFrame.tick fun kv => RowFrame.dlv kv _ kv.writes

theorem keeps_deleteDlv (subId seq : Nat) : Keeps R (deleteDlv subId seq) :=
  keeps_kvWrite RowFrame.tick fun kv => RowFrame.dlv kv _ kv.writes

theorem keeps_deleteDlvAll (subId : Nat) (seqs : List Nat) : Keeps R (deleteDlvAll subId seqs) := by
  induction seqs with
  | nil => exact Keeps.pure _
  | cons seq seqs ih => exact Keeps.bind (keeps_deleteDlv subId seq) fun _ => ih

theorem keeps_touch_of (hsubs : ∀ kv subs, R kv { kv with subs := subs })
    (hnames : ∀ kv names, R kv { kv with subNames := names }) (subId : Nat) (nowMs : Int) :
    Keeps R (SubscriptionStore.touch subId nowMs) := by
  refine Keeps.bind Keeps.estateGet fun kv => ?_
  cases SubscriptionStore.load kv subId s!"sub_id={subId}" with
  | error e => exact Keeps.pure _
  | ok r =>
    refine Keeps.bind (keeps_kvWrite RowFrame.tick fun kv => hsubs kv _) fun _ => ?_
    exact keeps_kvWrite RowFrame.tick fun kv => hnames kv _

theorem keeps_modifyAckDeadline (subId : Nat) (ackIds : List String) (nowMs seconds : Int) :
    Keeps (OnStore R) (modifyAckDeadline subId ackIds nowMs seconds) := by
  induction ackIds with
  | nil => exact Keeps.pure _
  | cons ackId ackIds ih =>
    refine Keeps.bind Keeps.get fun s => Keeps.bind (keeps_memory fun _ => rfl) fun _ => ?_
    cases (s.leases.extend ackId nowMs seconds).2 with
    | applied lease => exact Keeps.bind (keeps_onStore (keeps_putDlv _ _ _)) fun _ => ih
    | _ => exact ih

theorem keeps_releaseAll (subId : Nat) (seqs : List Nat) :
    Keeps (OnStore R) (releaseAll subId seqs) := by
  induction seqs with
  | nil => exact Keeps.pure _
  | cons seq seqs ih =>
    refine Keeps.bind (keeps_memory fun _ => rfl) fun _ => Keeps.bind ?_ fun _ => ih
    exact Keeps.ignore (keeps_onStore (keeps_deleteDlv _ _))

theorem keeps_onStreamClosed (streamId : Nat) : Keeps (OnStore R) (onStreamClosed streamId) := by
  refine Keeps.bind Keeps.get fun s => Keeps.bind (keeps_memory fun _ => rfl) fun _ => ?_
  cases (s.streams.close streamId).2 with
  | none => exact Keeps.pure _
  | some p => exact keeps_releaseAll _ _

end Data

section Append

variable {R : Kv → Kv → Prop}

theorem keeps_nextSeq [LogFrame R] (topicId : Nat) : Keeps R (TopicStore.nextSeq topicId) := by
  refine Keeps.bind Keeps.estateGet fun _ => Keeps.bind ?_ fun _ => Keeps.pure _
  exact keeps_kvWrite RowFrame.tick fun kv => LogFrame.log kv _ kv.msg kv.writes

theorem keeps_appendAll [LogFrame R] (topicId : Nat) (nowMs expireAtMs : Int) (ms : List PublishMessage) :
    Keeps R (TopicStore.appendAll topicId nowMs expireAtMs ms) := by
  induction ms with
  | nil => exact Keeps.pure _
  | cons m ms ih =>
    refine Keeps.bind (keeps_nextSeq topicId) fun _ => Keeps.bind ?_ fun _ => ?_
    · exact keeps_kvWrite RowFrame.tick fun kv => LogFrame.log kv kv.topicSeq _ kv.writes
    · exact Keeps.bind ih fun _ => Keeps.pure _

theorem keeps_append [LogFrame R] (topicId : Nat) (ms : List PublishMessage) (nowMs retentionSecs : Int) :
    Keeps R (TopicStore.append topicId ms nowMs retentionSecs) :=
  Keeps.bind (Keeps.liftResult _) fun _ => keeps_appendAll _ _ _ _

instance [LogFrame R] (nowMs : Int) : AppendFrame nowMs R where
  append topicId ms retentionSecs := keeps_append topicId ms nowMs retentionSecs

theorem ensures_appendAll_length (topicId : Nat) (nowMs expireAtMs : Int)
    (ms : List PublishMessage) (kv : Kv) :
    Ensures (TopicStore.appendAll topicId nowMs expireAtMs ms) kv
      (fun seqs _ => seqs.length = ms.length) (fun _ _ => True) := by
  induction ms generalizing kv with
  | nil => exact rfl
  | cons m ms ih =>
    simp only [TopicStore.appendAll, TopicStore.nextSeq, putTopicSeq, putMsg, ensures_bind,
      ensures_estateGet, ensures_kvWrite, ensures_pure, List.length_cons]
    refine ⟨fun _ => ⟨fun _ => ?_, fun _ => trivial⟩, fun _ => trivial⟩
    exact (ih _).mono (fun _ _ h => by rw [h]) (fun _ _ h => h)

theorem keeps_publish (topic : String) (ms : List PublishMessage) (nowMs : Int)
    [AppendFrame nowMs R] : Keeps (OnStore R) (PubSubService.publish topic ms nowMs) := by
  refine keeps_onStore (Keeps.bind Keeps.get fun _ => Keeps.bind (Keeps.liftResult _) fun _ => ?_)
  exact Keeps.bind (AppendFrame.append _ _ _) fun _ => Keeps.pure _

end Append

section Scan

variable {R : Kv → Kv → Prop} {a : LeaseArgs}

/-- The dead-letter log of `t` goes on where that of `s` stops. -/
def Logged (s t : Engine) : Prop := s.deadLettered <+: t.deadLettered

instance : Std.Refl Logged := ⟨fun s => List.prefix_refl s.deadLettered⟩

instance : IsTrans Engine Logged := ⟨fun _ _ _ h h' => h.trans h'⟩

/-- What a scan over `rows` did to its copy of the cursor: it only marks messages
that the filter rejects or that went to the dead-letter topic. -/
structure Marked (a : LeaseArgs) (rows : List (Nat × MessageRecord)) (c : CursorRecord)
    (t : Engine) (c' : CursorRecord) : Prop where
  advanced : c.Advanced c'
  newly : ∀ q, c'.isDone q = true → c.isDone q = true ∨
    (∃ m, (q, m) ∈ rows ∧ accepts a.filter m.attributes = false) ∨
    ∃ en ∈ t.deadLettered, en.subId = a.subId ∧ en.seq = q

theorem Marked.refl (rows : List (Nat × MessageRecord)) (c : CursorRecord) (t : Engine) :
    Marked a rows c t c :=
  ⟨.refl c, fun _ h => Or.inl h⟩

theorem Marked.markDone {seq : Nat} {rows : List (Nat × MessageRecord)} (c : CursorRecord)
    {t : Engine} (h : (∃ m, (seq, m) ∈ rows ∧ accepts a.filter m.attributes = false) ∨
      ∃ en ∈ t.deadLettered, en.subId = a.subId ∧ en.seq = seq) :
    Marked a rows c t (OpenPubusb.markDone c seq) := by
  refine ⟨advanced_markDone c seq, fun q hq => ?_⟩
  rcases (markDone_isDone c seq q).mp hq with hq | rfl
  · exact Or.inl hq
  · exact Or.inr h

theorem Marked.trans {rows rows' : List (Nat × MessageRecord)} {c c' c'' : CursorRecord}
    {t u : Engine} (h : Marked a rows c t c') (h' : Marked a rows' c' u c'') (hl : Logged t u) :
    Marked a (rows ++ rows') c u c'' := by
  refine ⟨h.advanced.trans h'.advanced, fun q hq => ?_⟩
  rcases h'.newly q hq with hq | ⟨m, hm, hrej⟩ | hen
  · rcases h.newly q hq with hq | ⟨m, hm, hrej⟩ | ⟨en, hen, hsub⟩
    · exact Or.inl hq
    · exact Or.inr (Or.inl ⟨m, List.mem_append_left _ hm, hrej⟩)
    · exact Or.inr (Or.inr ⟨en, hl.subset hen, hsub⟩)
  · exact Or.inr (Or.inl ⟨m, List.mem_append_right _ hm, hrej⟩)
  · exact Or.inr (Or.inr hen)

/-- A part of the scan over `rows`, from the copy `c` of the cursor. -/
def Scans (R : Kv → Kv → Prop) (a : LeaseArgs) (rows : List (Nat × MessageRecord))
    (c : CursorRecord) (m : EngineM Scan) : Prop :=
  ∀ s, Ensures m s (fun sc' t => R s.kv t.kv ∧ Logged s t ∧ Marked a rows c t sc'.cursor)
    (fun _ t => R s.kv t.kv ∧ Logged s t)

theorem Scans.pure [RowFrame R] {rows : List (Nat × MessageRecord)} (sc : Scan) :
    Scans R a rows sc.cursor (pure sc) :=
  fun s => ⟨RowFrame.refl s.kv, List.prefix_refl _, Marked.refl rows sc.cursor s⟩

theorem Scans.bind [RowFrame R] {α : Type} {rows : List (Nat × MessageRecord)} {c : CursorRecord}
    {m : EngineM α} {f : α → EngineM Scan}
    (hm : Keeps (fun s t => R s.kv t.kv ∧ Logged s t) m) (hf : ∀ x, Scans R a rows c (f x)) :
    Scans R a rows c (m >>= f) := by
  intro s
  rw [ensures_bind]
  refine (hm s).mono (fun x t h => ?_) (fun _ _ h => h)
  exact (hf x t).mono
    (fun _ _ h' => ⟨RowFrame.trans h.1 h'.1, h.2.trans h'.2.1, h'.2.2⟩)
    (fun _ _ h' => ⟨RowFrame.trans h.1 h'.1, h.2.trans h'.2⟩)

theorem keeps_logged [RowFrame R] {f : Engine → Engine} (hkv : ∀ s, (f s).kv = s.kv)
    (hlog : ∀ s, s.deadLettered <+: (f s).deadLettered) :
    Keeps (fun s t => R s.kv t.kv ∧ Logged s t) (modify f : EngineM Unit) := by
  intro s
  rw [ensures_modify]
  refine ⟨?_, hlog s⟩
  rw [hkv s]
  exact RowFrame.refl _

theorem keeps_onKv_logged {α : Type} {m : KvM α} (h : Keeps R m) :
    Keeps (fun s t => R s.kv t.kv ∧ Logged s t) (onKv m) := by
  intro s
  exact ensures_focus.mpr ((h s.kv).mono (fun _ _ hr => ⟨hr, List.prefix_refl _⟩)
    (fun _ _ hr => ⟨hr, List.prefix_refl _⟩))

theorem scans_grant [RowFrame R] (sc : Scan) (seq : Nat) (m : MessageRecord) (n : Nat)
    {rows : List (Nat × MessageRecord)} : Scans R a rows sc.cursor (grant a sc seq m n) := by
  refine Scans.bind (fun s => ⟨RowFrame.refl _, List.prefix_refl _⟩) fun _ => ?_
  refine Scans.bind (keeps_logged (fun _ => rfl) fun _ => List.prefix_refl _) fun _ => ?_
  refine Scans.bind (keeps_onKv_logged (keeps_putDlv _ _ _)) fun _ => fun s => ?_
  exact ⟨RowFrame.refl _, List.prefix_refl _, Marked.refl _ _ _⟩

theorem ensures_forward_logged (subId seq : Nat) (name : String) (m : MessageRecord)
    (policy : ReclaimPolicy) (n : Nat) (nowMs : Int) [AppendFrame nowMs R] (s : Engine) :
    Ensures (forwardToDeadLetterTopic subId seq name m policy n nowMs) s
      (fun b t => R s.kv t.kv ∧ Logged s t ∧
        (b = true → ∃ en ∈ t.deadLettered, en.subId = subId ∧ en.seq = seq))
      (fun _ t => R s.kv t.kv ∧ Logged s t) := by
  simp only [forwardToDeadLetterTopic, ensures_bind, ensures_get]
  cases hg : TopicStore.get s.kv name with
  | error e =>
    have hrefl : R s.kv s.kv ∧ Logged s s := ⟨RowFrame.refl _, List.prefix_refl _⟩
    cases e with
    | notFound _ => exact ⟨hrefl.1, hrefl.2, fun h => by cases h⟩
    | _ => exact hrefl
  | ok dlq =>
    have happend : Ensures (TopicStore.append dlq.id [deadLetterCopy m policy n] nowMs
        (topicRetentionSecs dlq)) s.kv (fun seqs kv => R s.kv kv ∧ seqs.length = 1)
        (fun _ kv => R s.kv kv) := by
      have hlen : Ensures (TopicStore.append dlq.id [deadLetterCopy m policy n] nowMs
          (topicRetentionSecs dlq)) s.kv (fun seqs _ => seqs.length = 1) (fun _ _ => True) := by
        simp only [TopicStore.append, ensures_bind, ensures_liftResult]
        exact ⟨fun _ _ => ensures_appendAll_length _ _ _ _ _, fun _ _ => trivial⟩
      exact ((AppendFrame.append (R := R) dlq.id [deadLetterCopy m policy n]
        (topicRetentionSecs dlq) s.kv).and hlen).mono (fun _ _ h => h) (fun _ _ h => h.1)
    simp only [ensures_bind, ensures_modify, ensures_pure, onKv, ensures_focus]
    refine happend.mono (fun seqs kv h => ⟨h.1, List.prefix_append _ _, fun _ => ?_⟩)
      (fun _ _ h => ⟨h, List.prefix_refl _⟩)
    obtain ⟨q, rfl⟩ := List.length_eq_one_iff.mp h.2
    exact ⟨⟨subId, seq, dlq.id, q⟩, List.mem_append_right _ List.mem_cons_self, rfl, rfl⟩

theorem scans_settle [RowFrame R] (sc : Scan) (seq : Nat) (m : MessageRecord) (n : Nat) (forwarded : Bool)
    {rows : List (Nat × MessageRecord)} {s : Engine}
    (h : forwarded = true → ∃ en ∈ s.deadLettered, en.subId = a.subId ∧ en.seq = seq) :
    Ensures (settle a sc seq m n forwarded) s
      (fun sc' t => R s.kv t.kv ∧ Logged s t ∧ Marked a rows sc.cursor t sc'.cursor)
      (fun _ t => R s.kv t.kv ∧ Logged s t) := by
  cases forwarded with
  | false => exact scans_grant sc seq m n s
  | true =>
    simp only [settle, if_true, ensures_bind, ensures_pure]
    refine (keeps_onKv_logged (keeps_deleteDlv (R := R) a.subId seq) s).mono (fun _ t ht => ?_)
      (fun _ _ h => h)
    obtain ⟨en, hen, hsub⟩ := h rfl
    exact ⟨ht.1, ht.2, Marked.markDone sc.cursor (Or.inr ⟨en, ht.2.subset hen, hsub⟩)⟩

theorem scans_reclaim [AppendFrame a.nowMs R] (sc : Scan) (seq : Nat) (m : MessageRecord) (deadlineMs : Int) (n : Nat)
    (live : Bool) {rows : List (Nat × MessageRecord)} :
    Scans R a rows sc.cursor (reclaim a sc seq m deadlineMs n live) := by
  intro s
  simp only [reclaim, ensures_bind, ensures_get, ensures_ite]
  refine ⟨fun _ => Scans.pure sc s, fun _ => ?_⟩
  have htry : Ensures (tryDeadLetter a seq m (reclaimPolicy s.kv a.subId) n) s
      (fun b t => R s.kv t.kv ∧ Logged s t ∧
        (b = true → ∃ en ∈ t.deadLettered, en.subId = a.subId ∧ en.seq = seq))
      (fun _ t => R s.kv t.kv ∧ Logged s t) := by
    simp only [tryDeadLetter, ensures_ite, ensures_pure]
    exact ⟨fun _ => ensures_forward_logged _ _ _ _ _ _ _ s,
      fun _ => ⟨RowFrame.refl _, List.prefix_refl _, fun h => by cases h⟩⟩
  refine htry.mono (fun b t ht => ?_) (fun _ _ h => h)
  obtain ⟨hr, hl, hb⟩ := ht
  have hsettle : ∀ leases : LeaseTable, Ensures (settle a sc seq m n b) { t with leases := leases }
      (fun sc' u => R s.kv u.kv ∧ Logged s u ∧ Marked a rows sc.cursor u sc'.cursor)
      (fun _ u => R s.kv u.kv ∧ Logged s u) := by
    intro leases
    have hend : Ensures (settle a sc seq m n b) { t with leases := leases }
        (fun sc' u => R t.kv u.kv ∧ Logged t u ∧ Marked a rows sc.cursor u sc'.cursor)
        (fun _ u => R t.kv u.kv ∧ Logged t u) :=
      scans_settle (s := { t with leases := leases }) sc seq m n b hb
    refine hend.mono (fun _ u h => ?_) (fun _ u h => ?_)
    · exact ⟨RowFrame.trans hr h.1, hl.trans h.2.1, h.2.2⟩
    · exact ⟨RowFrame.trans hr h.1, hl.trans h.2⟩
  simp only [removeLease, ensures_modify]
  exact ⟨fun _ => hsettle _, fun _ => hsettle t.leases⟩

theorem scans_leaseOne [AppendFrame a.nowMs R] (sc : Scan) (seq : Nat) (m : MessageRecord) :
    Scans R a [(seq, m)] sc.cursor (leaseOne a sc seq m) := by
  intro s
  simp only [leaseOne, ensures_ite, ensures_pure]
  refine ⟨fun _ => Scans.pure sc s, fun _ => ⟨fun hrej => ?_, fun _ => ?_⟩⟩
  · refine ⟨RowFrame.refl _, List.prefix_refl _, Marked.markDone sc.cursor (Or.inl ⟨m, ?_, ?_⟩)⟩
    · exact List.mem_cons_self
    · simpa using hrej
  · simp only [ensures_bind, ensures_get]
    cases s.leases.get a.subId seq with
    | some lease =>
      simp only [ensures_ite, ensures_pure]
      exact ⟨fun _ => Scans.pure sc s, fun _ => scans_reclaim sc seq m _ _ _ s⟩
    | none =>
      cases s.kv.dlv.get ⟨a.subId, seq⟩ with
      | some row => exact scans_reclaim sc seq m _ _ _ s
      | none => exact scans_grant sc seq m 0 s

theorem scans_leaseScan [AppendFrame a.nowMs R] (sc : Scan) (rows : List (Nat × MessageRecord)) :
    Scans R a rows sc.cursor (leaseScan a sc rows) := by
  induction rows generalizing sc with
  | nil => exact Scans.pure sc
  | cons row rows ih =>
    obtain ⟨seq, m⟩ := row
    intro s
    simp only [leaseScan, ensures_ite, ensures_pure, ensures_bind]
    refine ⟨fun _ => Scans.pure sc s, fun _ => ?_⟩
    refine (scans_leaseOne sc seq m s).mono (fun sc₁ t h => ?_) (fun _ _ h => h)
    refine (ih sc₁ t).mono (fun sc' u h' => ?_) (fun _ u h' => ?_)
    · exact ⟨RowFrame.trans h.1 h'.1, h.2.1.trans h'.2.1, h.2.2.trans h'.2.2 h'.2.1⟩
    · exact ⟨RowFrame.trans h.1 h'.1, h.2.1.trans h'.2⟩

end Scan

section Calls

variable {R : Kv → Kv → Prop}

instance [RowFrame R] : RowFrame (fun kv kv' => R kv kv' ∧ kv'.cursors = kv.cursors) where
  refl kv := ⟨RowFrame.refl kv, rfl⟩
  trans h h' := ⟨RowFrame.trans h.1 h'.1, h'.2.trans h.2⟩
  dlv kv dlv w := ⟨RowFrame.dlv kv dlv w, rfl⟩

instance : LogFrame (fun kv kv' => kv'.cursors = kv.cursors) where
  refl _ := rfl
  trans h h' := h'.trans h
  dlv _ _ _ := rfl
  log _ _ _ _ := rfl

instance : TouchFrame (fun kv kv' => kv'.cursors = kv.cursors) where
  touch := keeps_touch_of (fun _ _ => rfl) fun _ _ => rfl

instance {nowMs : Int} [AppendFrame nowMs R] :
    AppendFrame nowMs (fun kv kv' => R kv kv' ∧ kv'.cursors = kv.cursors) where
  append topicId ms retentionSecs kv := by
    have happend : Keeps R (TopicStore.append topicId ms nowMs retentionSecs) :=
      AppendFrame.append topicId ms retentionSecs
    have hcursors : Keeps (fun kv kv' => kv'.cursors = kv.cursors)
        (TopicStore.append topicId ms nowMs retentionSecs) := keeps_append topicId ms nowMs _
    exact (happend kv).and (hcursors kv)

theorem ensures_saveChanged [CursorFrame R] {subId : Nat} {c : CursorRecord × Bool}
    {c₀ : CursorRecord} {s : Engine} (hc : s.kv.cursors.get subId = some c₀)
    (ha : c₀.Advanced c.1) :
    Ensures (saveChanged subId c) s (fun _ t => R s.kv t.kv) (fun _ t => R s.kv t.kv) := by
  simp only [saveChanged, saveCursor, putCursor, ensures_ite, onKv, ensures_focus, ensures_kvWrite,
    ensures_pure]
  exact ⟨fun _ => ⟨fun _ => CursorFrame.cursor _ hc ha, fun _ => RowFrame.tick s.kv⟩,
    fun _ => RowFrame.refl s.kv⟩

theorem keeps_leaseNextLocked {a : LeaseArgs} [AppendFrame a.nowMs R] [CursorFrame R]
    {c : CursorRecord} {s : Engine} (hc : s.kv.cursors.get a.subId = some c) :
    Ensures (leaseNextLocked a c) s (fun _ t => R s.kv t.kv) (fun _ t => R s.kv t.kv) := by
  simp only [leaseNextLocked, ensures_bind, ensures_get, ensures_pure]
  have hscan := scans_leaseScan (R := fun kv kv' => R kv kv' ∧ kv'.cursors = kv.cursors) (a := a)
    ⟨c, false, []⟩ (scanPrefix s.kv.msg a.topicId) s
  refine hscan.mono (fun sc t h => ?_) (fun _ _ h => h.1.1)
  obtain ⟨⟨hr, hcur⟩, _, hm⟩ := h
  have hct : t.kv.cursors.get a.subId = some c := by rw [hcur, hc]
  exact (ensures_saveChanged (R := R) hct hm.advanced).mono
    (fun _ _ h => RowFrame.trans hr h) (fun _ _ h => RowFrame.trans hr h)

theorem keeps_leaseNext (subId topicId : Nat) (maxMessages nowMs ackDeadlineSecs : Int)
    [AppendFrame nowMs R] [CursorFrame R] :
    Keeps (OnStore R) (leaseNext subId topicId maxMessages nowMs ackDeadlineSecs) := by
  intro s
  simp only [leaseNext, loadCursor, ensures_ite, ensures_pure, ensures_bind, ensures_get]
  refine ⟨fun _ => RowFrame.refl s.kv, fun _ => ?_⟩
  cases hc : s.kv.cursors.get subId with
  | none => exact RowFrame.refl s.kv
  | some c =>
    simp only [ensures_pure, compiledFilter, ensures_bind, ensures_get]
    cases s.filters.get subId with
    | some f => exact keeps_leaseNextLocked (s := s) hc
    | none =>
      simp only [ensures_bind, ensures_modify, ensures_pure]
      exact keeps_leaseNextLocked (s := { s with filters := _ }) hc

theorem ensures_ackAll_advanced [RowFrame R] (subId : Nat) (c : CursorRecord × Bool)
    (ackIds : List String) (s : Engine) :
    Ensures (ackAll subId c ackIds) s (fun c' t => R s.kv t.kv ∧ c.1.Advanced c'.1)
      (fun _ t => R s.kv t.kv) := by
  induction ackIds generalizing s c with
  | nil => exact ⟨RowFrame.refl s.kv, .refl _⟩
  | cons ackId ackIds ih =>
    simp only [ackAll, setLeases, ensures_bind, ensures_get, ensures_modify]
    cases (s.leases.ack ackId).2 with
    | applied lease =>
      simp only [ensures_bind]
      refine (keeps_onStore (keeps_deleteDlv (R := R) subId lease.seq) _).mono (fun _ t h => ?_)
        (fun _ _ h => h)
      refine (ih (markDone c.1 lease.seq, true) t).mono (fun c' u h' => ?_) (fun _ u h' => ?_)
      · exact ⟨RowFrame.trans h h'.1, (advanced_markDone c.1 lease.seq).trans h'.2⟩
      · exact RowFrame.trans h h'
    | _ => exact ih c { s with leases := _ }

theorem keeps_acknowledge [CursorFrame R] (subId : Nat) (ackIds : List String) :
    Keeps (OnStore R) (acknowledge subId ackIds) := by
  intro s
  simp only [acknowledge, loadCursor, ensures_ite, ensures_pure, ensures_bind, ensures_get]
  refine ⟨fun _ => RowFrame.refl s.kv, fun _ => ?_⟩
  cases hc : s.kv.cursors.get subId with
  | none => exact RowFrame.refl s.kv
  | some c =>
    simp only [ensures_pure, acknowledgeLocked, ensures_bind]
    have hall := ensures_ackAll_advanced (R := fun kv kv' => R kv kv' ∧ kv'.cursors = kv.cursors)
      subId (c, false) ackIds s
    refine hall.mono (fun c' t h => ?_) (fun _ _ h => h.1)
    obtain ⟨⟨hr, hcur⟩, ha⟩ := h
    have hct : t.kv.cursors.get subId = some c := by rw [hcur, hc]
    exact (ensures_saveChanged (R := R) hct ha).mono (fun _ _ h => RowFrame.trans hr h)
      (fun _ _ h => RowFrame.trans hr h)

theorem keeps_attached [RowFrame R] (name : String) :
    Keeps (OnStore R) (PubSubService.attached name) := by
  refine Keeps.bind Keeps.get fun _ => Keeps.bind (Keeps.liftResult _) fun _ => ?_
  exact Keeps.ite (fun _ => Keeps.throw _) fun _ => Keeps.pure _

theorem keeps_leaseForStream (streamId : Nat) (nowMs : Int) [AppendFrame nowMs R]
    [CursorFrame R] : Keeps (OnStore R) (leaseForStream streamId nowMs) := by
  refine Keeps.bind Keeps.get fun s => ?_
  cases s.streams.info streamId with
  | none => exact Keeps.throw _
  | some info =>
    refine Keeps.ite (fun _ => Keeps.pure _) fun _ => Keeps.bind (keeps_leaseNext _ _ _ _ _) fun _ => ?_
    exact Keeps.bind (keeps_memory fun _ => rfl) fun _ => Keeps.pure _

theorem keeps_serviceTouch [TouchFrame R] (subId : Nat) (nowMs : Int) :
    Keeps (OnStore R) (PubSubService.touch subId nowMs) :=
  Keeps.ignore (keeps_onStore (TouchFrame.touch subId nowMs))

/-- The operations on leases and streams that reach neither the log nor a cursor. -/
def Op.isQuiet : Op → Bool
  | .modifyAckDeadline .. => true
  | .sweepSubscription .. => true
  | .openStream .. => true
  | .updateStream .. => true
  | .streamModifyAckDeadline .. => true
  | .closeStream .. => true
  | .restart => true
  | _ => false

theorem keeps_quiet [TouchFrame R] (nowMs : Int) {op : Op} (h : op.isQuiet = true) :
    Keeps (OnStore R) (perform nowMs op) := by
  cases op with
  | modifyAckDeadline =>
    refine Keeps.bind (Keeps.bind Keeps.get fun _ => ?_) fun _ => Keeps.pure _
    refine Keeps.bind (Keeps.liftResult _) fun _ => ?_
    exact Keeps.bind (keeps_modifyAckDeadline _ _ _ _) fun _ => keeps_serviceTouch _ _
  | sweepSubscription =>
    refine Keeps.bind (Keeps.bind Keeps.get fun _ => ?_) fun _ => Keeps.pure _
    exact Keeps.bind (keeps_memory fun _ => rfl) fun _ => Keeps.pure _
  | openStream =>
    refine Keeps.bind (Keeps.bind (keeps_attached _) fun _ => ?_) fun _ => Keeps.pure _
    refine Keeps.bind (Keeps.bind Keeps.get fun _ => ?_) fun _ => Keeps.pure _
    exact Keeps.bind (keeps_memory fun _ => rfl) fun _ => Keeps.pure _
  | updateStream => exact Keeps.bind (keeps_memory fun _ => rfl) fun _ => Keeps.pure _
  | streamModifyAckDeadline =>
    refine Keeps.bind (Keeps.bind ?_ fun _ => keeps_serviceTouch _ _) fun _ => Keeps.pure _
    refine Keeps.bind (keeps_modifyAckDeadline _ _ _ _) fun _ => ?_
    exact Keeps.ite (fun _ => keeps_memory fun _ => rfl) fun _ => Keeps.pure _
  | closeStream => exact Keeps.bind (keeps_onStreamClosed _) fun _ => Keeps.pure _
  | restart => exact Keeps.bind (keeps_memory fun _ => rfl) fun _ => Keeps.pure _
  | _ => cases h

def Op.isAck : Op → Bool
  | .acknowledge .. => true
  | .streamAcknowledge .. => true
  | _ => false

theorem keeps_ack [CursorFrame R] [TouchFrame R] (nowMs : Int) {op : Op} (h : op.isAck = true) :
    Keeps (OnStore R) (perform nowMs op) := by
  cases op with
  | acknowledge =>
    refine Keeps.bind (Keeps.bind Keeps.get fun _ => ?_) fun _ => Keeps.pure _
    refine Keeps.bind (Keeps.liftResult _) fun _ => ?_
    exact Keeps.bind (keeps_acknowledge _ _) fun _ => keeps_serviceTouch _ _
  | streamAcknowledge =>
    refine Keeps.bind (Keeps.bind ?_ fun _ => keeps_serviceTouch _ _) fun _ => Keeps.pure _
    exact Keeps.bind (keeps_acknowledge _ _) fun _ => keeps_memory fun _ => rfl
  | _ => cases h

def Op.isLease : Op → Bool
  | .pull .. => true
  | .leaseForStream .. => true
  | _ => false

theorem keeps_lease (nowMs : Int) [AppendFrame nowMs R] [CursorFrame R] [TouchFrame R] {op : Op}
    (h : op.isLease = true) : Keeps (OnStore R) (perform nowMs op) := by
  cases op with
  | pull =>
    refine Keeps.bind (Keeps.bind (Keeps.liftResult _) fun _ => ?_) fun _ => Keeps.pure _
    refine Keeps.bind (keeps_attached _) fun _ => Keeps.bind (keeps_leaseNext _ _ _ _ _) fun _ => ?_
    exact Keeps.bind (keeps_serviceTouch _ _) fun _ => Keeps.pure _
  | leaseForStream =>
    exact Keeps.bind Keeps.get fun _ => Keeps.bind (keeps_leaseForStream _ _) fun _ => Keeps.pure _
  | _ => cases h

end Calls

end OpenPubusb
