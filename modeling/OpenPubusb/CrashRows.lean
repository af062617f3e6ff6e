import OpenPubusb.LogSteps
import OpenPubusb.Memory

/-! What a delivery call leaves in the rows when its writes stop after any number
of them: the tables still agree, nothing leaves a log, and a cursor only gains what
was acknowledged, rejected by the filter, or forwarded to a dead-letter topic. -/

namespace OpenPubusb

open Hoare

/-- The operations that deliver and acknowledge, next to those that administer. -/
def Op.isDelivery : Op → Bool
  | .publish .. => true
  | op => op.isQuiet || op.isAck || op.isLease

theorem delivery_cases {op : Op} (h : op.isDelivery = true) :
    (∃ topic ms, op = .publish topic ms) ∨ op.isQuiet = true ∨ op.isAck = true ∨
      op.isLease = true := by
  cases op with
  | publish topic ms => exact Or.inl ⟨topic, ms, rfl⟩
  | _ => simpa [Op.isDelivery, or_assoc] using h

section Rows

variable {kv kv' kv'' : Kv}

theorem Consistent.wellFormed (h : Consistent kv)
    (hlog : ∀ {topicId seq m}, kv.msg.get ⟨topicId, seq⟩ = some m →
      seq ≤ TopicStore.currentTail kv topicId) : kv.WellFormed where
  record {id r} hr := by
    have hsome : (kv.subs.get id).isSome := by rw [hr]; rfl
    exact ⟨(h.subs.record hr).2, h.sub_known hsome⟩
  cursor {id c} hc := by
    have hsome : (kv.cursors.get id).isSome := by rw [hc]; rfl
    exact h.sub_known ((h.cursors id).mp hsome)
  index {topicId id u} hi := by
    have hsome : (kv.idx.get ⟨topicId, id⟩).isSome := by rw [hi]; rfl
    obtain ⟨r, hr, ht⟩ := (h.idx topicId id).mp hsome
    refine ⟨h.sub_known (by rw [hr]; rfl), fun r' hr' => ?_⟩
    rw [hr, Option.some.injEq] at hr'
    rw [← hr']
    exact ht
  log := hlog

/-- What the rows of a store keep while deliveries go on. -/
structure Survives (kv kv' : Kv) : Prop where
  consistent : Consistent kv'
  wellFormed : kv'.WellFormed
  counter : kv.counter ≤ kv'.counter
  records : ∀ id, (kv'.subs.get id).map identity = (kv.subs.get id).map identity
  cursor : ∀ {id c}, kv.cursors.get id = some c →
    ∃ c', kv'.cursors.get id = some c' ∧ c.Advanced c'
  log : ∀ {topicId seq m}, kv.msg.get ⟨topicId, seq⟩ = some m →
    kv'.msg.get ⟨topicId, seq⟩ = some m

theorem Survives.refl (hc : Consistent kv) (hwf : kv.WellFormed) : Survives kv kv :=
  ⟨hc, hwf, le_rfl, fun _ => rfl, fun {_ c} hcur => ⟨c, hcur, .refl c⟩, fun hm => hm⟩

theorem Survives.trans (h : Survives kv kv') (h' : Survives kv' kv'') : Survives kv kv'' where
  consistent := h'.consistent
  wellFormed := h'.wellFormed
  counter := h.counter.trans h'.counter
  records id := (h'.records id).trans (h.records id)
  cursor hc := by
    obtain ⟨c', hc', ha⟩ := h.cursor hc
    obtain ⟨c'', hc'', ha'⟩ := h'.cursor hc'
    exact ⟨c'', hc'', ha.trans ha'⟩
  log hm := h'.log (h.log hm)

theorem Evolves.survives (h : Evolves kv kv') (hwf : kv.WellFormed) (hmsg : kv'.msg = kv.msg)
    (hseq : kv'.topicSeq = kv.topicSeq)
    (hrec : ∀ id, (kv'.subs.get id).map identity = (kv.subs.get id).map identity)
    (hcur : ∀ {id c}, kv.cursors.get id = some c →
      ∃ c', kv'.cursors.get id = some c' ∧ c.Advanced c') : Survives kv kv' := by
  refine ⟨h.consistent, h.consistent.wellFormed fun {t q m} hm => ?_, h.counter, hrec, hcur,
    fun hm => by rw [hmsg]; exact hm⟩
  rw [hmsg] at hm
  rw [TopicStore.currentTail, hseq]
  exact hwf.log hm

/-- The relation that delivery calls keep to, wherever their writes stop. -/
def Safe (kv kv' : Kv) : Prop := Consistent kv → kv.WellFormed → Survives kv kv'

theorem safe_tables (h : SameTables kv kv') (hmsg : kv'.msg = kv.msg)
    (hseq : kv'.topicSeq = kv.topicSeq) (hcur : kv'.cursors = kv.cursors) : Safe kv kv' := by
  intro hc hwf
  refine (h.evolves hc).survives hwf hmsg hseq (fun id => by rw [h.subs]) fun {id c} hid => ?_
  rw [hcur]
  exact ⟨c, hid, .refl c⟩

instance : RowFrame Safe where
  refl _ hc hwf := .refl hc hwf
  trans h h' hc hwf := (h hc hwf).trans (h' (h hc hwf).consistent (h hc hwf).wellFormed)
  dlv _ _ _ :=
    safe_tables ⟨rfl, rfl, rfl, rfl, rfl, rfl, rfl, rfl, rfl, fun _ => rfl⟩ rfl rfl rfl

instance : LogFrame SameTables where
  refl _ := ⟨rfl, rfl, rfl, rfl, rfl, rfl, rfl, rfl, rfl, fun _ => rfl⟩
  trans h h' := ⟨h'.ok.trans h.ok, h'.idSeq.trans h.idSeq, h'.topics.trans h.topics,
    h'.topicNames.trans h.topicNames, h'.subs.trans h.subs, h'.subNames.trans h.subNames,
    h'.snaps.trans h.snaps, h'.snapNames.trans h.snapNames, h'.idx.trans h.idx,
    fun id => (h'.cursors id).trans (h.cursors id)⟩
  dlv _ _ _ := ⟨rfl, rfl, rfl, rfl, rfl, rfl, rfl, rfl, rfl, fun _ => rfl⟩
  log _ _ _ _ := ⟨rfl, rfl, rfl, rfl, rfl, rfl, rfl, rfl, rfl, fun _ => rfl⟩

/-- The counter row of a seq may be there without the row of its message. -/
instance {nowMs : Int} : AppendFrame nowMs Safe where
  append topicId ms retentionSecs kv := by
    have htables : Keeps SameTables (TopicStore.append topicId ms nowMs retentionSecs) :=
      keeps_append topicId ms nowMs retentionSecs
    have key : ∀ kv', SameTables kv kv' → Extended kv kv' → kv'.cursors = kv.cursors →
        Safe kv kv' := by
      intro kv' hsame hext hcur hc hwf
      have hwf' : kv'.WellFormed := hext.wellFormed (fun {id c'} hc' => by
        rw [hcur] at hc'
        exact ⟨c', hc'⟩) hwf
      have hev := hsame.evolves hc
      refine ⟨hev.consistent, hwf', hev.counter, fun id => by rw [hsame.subs],
        fun {id c} hid => ⟨c, by rw [hcur]; exact hid, .refl c⟩, fun {t q m} hm => ?_⟩
      rw [hext.kept t q (hwf.log hm)]
      exact hm
    refine ((htables kv).and (ensures_append topicId ms nowMs retentionSecs kv)).mono
      (fun _ kv' h => ?_) (fun _ kv' h => ?_)
    · exact key kv' h.1 h.2.extended h.2.rows_kept.2
    · exact key kv' h.1 h.2.1 h.2.2.1.2

instance : CursorFrame Safe where
  cursor {kv id c c'} w hcur ha hc hwf := by
    have hsome : (kv.cursors.get id).isSome = true := by rw [hcur]; rfl
    refine ((sameTables_cursor hsome c' w).evolves hc).survives hwf rfl rfl (fun _ => rfl)
      fun {i c₀} hi => ?_
    simp only [SortedMap.get_insert]
    split_ifs with he
    · rw [he, hcur, Option.some.injEq] at hi
      exact ⟨c', rfl, hi ▸ ha⟩
    · exact ⟨c₀, hi, .refl c₀⟩

/-- The record may be written and its name row not: the name row is there already. -/
instance : TouchFrame Safe where
  touch subId nowMs := by
    intro kv
    simp only [SubscriptionStore.touch, ensures_bind, ensures_estateGet]
    cases hl : SubscriptionStore.load kv subId s!"sub_id={subId}" with
    | error e => exact RowFrame.refl (R := Safe) kv
    | ok r =>
      have hr := load_eq_ok hl
      have hrec : Consistent kv → ∀ i,
          (((kv.subs.insert r.id { r with lastActivityTsMs := nowMs }).get i).map identity) =
            (kv.subs.get i).map identity := by
        intro hc i
        have hrows := (@persist_rows kv hc _ r { r with lastActivityTsMs := nowMs } hr rfl).1 i
        rw [hrows]
        split_ifs with hi
        · rw [hi, hr]
          rfl
        · rfl
      simp only [SubscriptionStore.persist, ensures_bind, putSub, putSubName, ensures_kvWrite]
      refine ⟨fun _ => ⟨fun _ hc hwf => ?_, fun _ hc hwf => ?_⟩, fun _ => RowFrame.tick (R := Safe) kv⟩
      · have hnames := (@persist_rows kv hc _ r { r with lastActivityTsMs := nowMs } hr rfl).2
        exact (evolves_subs hc (hrec hc) hnames _).survives hwf rfl rfl (hrec hc)
          fun {i c} hi => ⟨c, hi, .refl c⟩
      · exact (evolves_subs hc (hrec hc) (fun _ => rfl) _).survives hwf rfl rfl (hrec hc)
          fun {i c} hi => ⟨c, hi, .refl c⟩

theorem safe_perform (nowMs : Int) {op : Op} (h : op.isDelivery = true) :
    Keeps (OnStore Safe) (perform nowMs op) := by
  rcases delivery_cases h with ⟨topic, ms, rfl⟩ | hquiet | hack | hlease
  · exact Keeps.bind (keeps_publish topic ms nowMs) fun _ => Keeps.pure _
  · exact keeps_quiet nowMs hquiet
  · exact keeps_ack nowMs hack
  · exact keeps_lease nowMs hlease

end Rows

section Marks

variable {s : Engine} {kv kv' kv'' : Kv} {P Q : Nat → Nat → Prop}

/-- The cursors were there before, and they have gained only messages that `P` says. -/
def Gains (P : Nat → Nat → Prop) (kv kv' : Kv) : Prop :=
  ∀ id c', kv'.cursors.get id = some c' → ∃ c, kv.cursors.get id = some c ∧ c.Advanced c' ∧
    ∀ q, c'.isDone q = true → c.isDone q = true ∨ P id q

theorem gains_of_eq (h : kv'.cursors = kv.cursors) : Gains P kv kv' := by
  intro id c' hc'
  rw [h] at hc'
  exact ⟨c', hc', .refl c', fun _ => Or.inl⟩

theorem Gains.mono (h : Gains P kv kv') (hp : ∀ id q, P id q → Q id q) : Gains Q kv kv' := by
  intro id c' hc'
  obtain ⟨c, hc, ha, hnew⟩ := h id c' hc'
  exact ⟨c, hc, ha, fun q hq => (hnew q hq).imp_right (hp id q)⟩

theorem Gains.then_eq (h : Gains P kv kv') (he : kv''.cursors = kv'.cursors) :
    Gains P kv kv'' := by
  intro id c' hc'
  rw [he] at hc'
  exact h id c' hc'

theorem Gains.of_eq (he : kv'.cursors = kv.cursors) (h : Gains P kv' kv'') : Gains P kv kv'' := by
  intro id c'' hc''
  have hold := h id c'' hc''
  rw [he] at hold
  exact hold

theorem ensures_saveChanged_gains {subId : Nat} {c : CursorRecord × Bool} {c₀ : CursorRecord}
    (hc : s.kv.cursors.get subId = some c₀) (ha : c₀.Advanced c.1)
    (hnew : ∀ q, c.1.isDone q = true → c₀.isDone q = true ∨ P subId q) :
    Ensures (saveChanged subId c) s
      (fun _ t => Gains P s.kv t.kv ∧ t.deadLettered = s.deadLettered)
      (fun _ t => Gains P s.kv t.kv ∧ t.deadLettered = s.deadLettered) := by
  simp only [saveChanged, saveCursor, putCursor, ensures_ite, onKv, ensures_focus, ensures_kvWrite,
    ensures_pure]
  refine ⟨fun _ => ⟨fun _ => ⟨?_, trivial⟩, fun _ => ⟨gains_of_eq rfl, trivial⟩⟩,
    fun _ => ⟨gains_of_eq rfl, trivial⟩⟩
  intro id c' hc'
  rw [SortedMap.get_insert] at hc'
  split_ifs at hc' with hi
  · cases hc'
    subst hi
    exact ⟨c₀, hc, ha, hnew⟩
  · exact ⟨c', hc', .refl c', fun _ => Or.inl⟩

/-- Why a scan marks a message done: the filter rejects it, or it was forwarded. -/
def LeaseCause (a : LeaseArgs) (s t : Engine) (id q : Nat) : Prop :=
  id = a.subId ∧ ((∃ m, s.kv.msg.get ⟨a.topicId, q⟩ = some m ∧
    accepts a.filter m.attributes = false) ∨ ∃ en ∈ t.deadLettered, en.subId = id ∧ en.seq = q)

theorem ensures_leaseNextLocked_gains {a : LeaseArgs} {c : CursorRecord}
    (hc : s.kv.cursors.get a.subId = some c) :
    Ensures (leaseNextLocked a c) s (fun _ t => Gains (LeaseCause a s t) s.kv t.kv)
      (fun _ t => Gains (LeaseCause a s t) s.kv t.kv) := by
  simp only [leaseNextLocked, ensures_bind, ensures_get, ensures_pure]
  have hscan := scans_leaseScan (R := fun kv kv' => kv'.cursors = kv.cursors) (a := a)
    ⟨c, false, []⟩ (scanPrefix s.kv.msg a.topicId) s
  refine hscan.mono (fun sc t h => ?_) (fun _ _ h => gains_of_eq h.1)
  obtain ⟨hcur, _, hm⟩ := h
  have hct : t.kv.cursors.get a.subId = some c := by rw [hcur, hc]
  have hsave := ensures_saveChanged_gains (P := LeaseCause a s t) (c := (sc.cursor, sc.cursorChanged))
    hct hm.advanced fun q hq => ?_
  · have key : ∀ u : Engine, Gains (LeaseCause a s t) t.kv u.kv ∧ u.deadLettered = t.deadLettered →
        Gains (LeaseCause a s u) s.kv u.kv := by
      intro u hu
      refine (Gains.of_eq hcur hu.1).mono fun id q hq => ?_
      rw [LeaseCause, hu.2]
      exact hq
    exact hsave.mono (fun _ u hu => key u hu) (fun _ u hu => key u hu)
  · refine (hm.newly q hq).imp_right fun hcause => ⟨rfl, hcause.imp_left ?_⟩
    rintro ⟨m, hmem, hrej⟩
    exact ⟨m, mem_scanPrefix.mp hmem, hrej⟩

theorem ensures_leaseNext_gains (subId topicId : Nat) (maxMessages nowMs secs : Int) :
    ∃ a : LeaseArgs, a.subId = subId ∧ a.topicId = topicId ∧ a.filter = s.filterOf subId ∧
      Ensures (leaseNext subId topicId maxMessages nowMs secs) s
        (fun _ t => Gains (LeaseCause a s t) s.kv t.kv)
        (fun _ t => Gains (LeaseCause a s t) s.kv t.kv) := by
  refine ⟨⟨subId, topicId, maxMessages.toNat, nowMs, secs, s.filterOf subId⟩, rfl, rfl, rfl, ?_⟩
  simp only [leaseNext, loadCursor, ensures_ite, ensures_pure, ensures_bind, ensures_get]
  refine ⟨fun _ => gains_of_eq rfl, fun _ => ?_⟩
  cases hc : s.kv.cursors.get subId with
  | none => exact gains_of_eq rfl
  | some c =>
    refine ensures_compiledFilter fun fs => ?_
    exact ensures_leaseNextLocked_gains (s := { s with filters := fs }) hc

theorem keeps_leases_onKv {α : Type} (m : KvM α) :
    Keeps (fun s t : Engine => t.leases = s.leases) (onKv m) := by
  intro s
  rw [onKv, ensures_focus]
  unfold Ensures
  cases m s.kv with
  | ok a kv => exact rfl
  | error e kv => exact rfl

theorem ensures_ackAll_gains {subId : Nat} (ackIds : List String) (hc : s.leases.Coherent)
    (c : CursorRecord × Bool) :
    Ensures (ackAll subId c ackIds) s
      (fun c' t => t.kv.cursors = s.kv.cursors ∧ c.1.Advanced c'.1 ∧
        ∀ q, c'.1.isDone q = true → c.1.isDone q = true ∨ ∃ j, Hit s.leases ackIds j q)
      (fun _ t => t.kv.cursors = s.kv.cursors) := by
  induction ackIds generalizing s c with
  | nil => exact ⟨rfl, .refl _, fun _ => Or.inl⟩
  | cons ackId ackIds ih =>
    have hskip : ∀ {j q}, Hit s.leases ackIds j q → Hit s.leases (ackId :: ackIds) j q := by
      rintro j q ⟨x, hx, hn⟩
      exact ⟨x, List.mem_cons_of_mem _ hx, hn⟩
    simp only [ackAll, setLeases, ensures_bind, ensures_get, ensures_modify]
    rcases s.leases.resolveAck_cases ackId (fun i q l => (s.leases.remove i q, .applied l)) with
      ⟨i, q, l, hl, hd, he⟩ | ⟨_, he, hout⟩
    · have hack : s.leases.ack ackId = (s.leases.remove i q, .applied l) := he
      have hseq : l.seq = q := (hc.keyed hl).2
      simp only [hack, ensures_bind, hseq]
      have hrow : Keeps (OnStore fun kv kv' => kv'.cursors = kv.cursors)
          (onKv (deleteDlv subId q)) := keeps_onStore (keeps_deleteDlv _ _)
      refine ((hrow _).and (keeps_leases_onKv (deleteDlv subId q) _)).mono (fun _ t ht => ?_) (fun _ _ ht => ht.1)
      have hlease : t.leases = s.leases.remove i q := ht.2
      refine (ih (s := t) (by rw [hlease]; exact hc.remove i q) (markDone c.1 q, true)).mono
        (fun c' u h => ?_) (fun _ u h => h.trans ht.1)
      refine ⟨h.1.trans ht.1, (advanced_markDone c.1 q).trans h.2.1, fun q' hq' => ?_⟩
      rcases h.2.2 q' hq' with hq' | ⟨j, x, hx, hn⟩
      · refine ((markDone_isDone c.1 q q').mp hq').imp_right ?_
        rintro rfl
        exact ⟨i, ackId, List.mem_cons_self, l, hl, hd⟩
      · rw [hlease] at hn
        exact Or.inr ⟨j, hskip ⟨x, hx, (names_remove.mp hn).2⟩⟩
    · have hack : (s.leases.ack ackId).1 = s.leases := he
      rw [hack]
      have hrest : Ensures (ackAll subId c ackIds) s
          (fun c' t => t.kv.cursors = s.kv.cursors ∧ c.1.Advanced c'.1 ∧
            ∀ q, c'.1.isDone q = true → c.1.isDone q = true ∨
              ∃ j, Hit s.leases (ackId :: ackIds) j q)
          (fun _ t => t.kv.cursors = s.kv.cursors) := by
        refine (ih hc c).mono (fun c' t h => ⟨h.1, h.2.1, fun q hq => ?_⟩) (fun _ _ h => h)
        exact (h.2.2 q hq).imp_right fun hhit => hhit.imp fun _ hj => hskip hj
      cases ho : (s.leases.ack ackId).2 with
      | applied l => exact absurd ho (hout l)
      | _ => exact hrest

theorem ensures_acknowledge_gains (subId : Nat) (ackIds : List String) (hc : s.leases.Coherent) :
    Ensures (acknowledge subId ackIds) s
      (fun _ t => Gains (fun id q => id = subId ∧ ∃ j, Hit s.leases ackIds j q) s.kv t.kv)
      (fun _ t => Gains (fun id q => id = subId ∧ ∃ j, Hit s.leases ackIds j q) s.kv t.kv) := by
  simp only [acknowledge, loadCursor, ensures_ite, ensures_pure, ensures_bind, ensures_get]
  refine ⟨fun _ => gains_of_eq rfl, fun _ => ?_⟩
  cases hcur : s.kv.cursors.get subId with
  | none => exact gains_of_eq rfl
  | some c =>
    simp only [ensures_pure, acknowledgeLocked, ensures_bind]
    refine (ensures_ackAll_gains ackIds hc (c, false)).mono (fun c' t h => ?_)
      (fun _ _ h => gains_of_eq h)
    have hct : t.kv.cursors.get subId = some c := by rw [h.1, hcur]
    have hsave := ensures_saveChanged_gains
      (P := fun id q => id = subId ∧ ∃ j, Hit s.leases ackIds j q) hct h.2.1
      fun q hq => (h.2.2 q hq).imp_right fun hhit => ⟨rfl, hhit⟩
    exact hsave.mono (fun _ _ hu => .of_eq h.1 hu.1) (fun _ _ hu => .of_eq h.1 hu.1)

end Marks

section Calls

variable {s t : Engine} {op : Op} {id q : Nat}

/-- Why the operation may mark the message done: an acknowledgement sent to the
subscription names its lease, it is in the dead-letter log, or the filter rejects it. -/
def MarkCause (s : Engine) (op : Op) (t : Engine) (id q : Nat) : Prop :=
  (∃ ackIds, ackCall s.kv op = some (id, ackIds) ∧ ∃ j, Hit s.leases ackIds j q) ∨
  (∃ en ∈ t.deadLettered, en.subId = id ∧ en.seq = q) ∨
  ∃ topicId m, (∀ r, s.kv.subs.get id = some r → r.topicId = topicId) ∧
    s.kv.msg.get ⟨topicId, q⟩ = some m ∧ accepts (s.filterOf id) m.attributes = false

theorem LeaseCause.mark {a : LeaseArgs} (h : LeaseCause a s t id q)
    (ht : ∀ r, s.kv.subs.get a.subId = some r → r.topicId = a.topicId)
    (hf : a.filter = s.filterOf a.subId) : MarkCause s op t id q := by
  obtain ⟨rfl, ⟨m, hm, hrej⟩ | hen⟩ := h
  · exact Or.inr (Or.inr ⟨a.topicId, m, ht, hm, hf ▸ hrej⟩)
  · exact Or.inr (Or.inl hen)

/-- What the marks of a call rest on. -/
structure Grounded (s : Engine) : Prop where
  consistent : Consistent s.kv
  coherent : s.leases.Coherent
  session : ∀ {sid st}, s.streams.sessions.get sid = some st →
    ∀ r, s.kv.subs.get st.info.subId = some r → r.topicId = st.info.topicId

theorem Grounded.topic (h : Grounded s) {name : String} {sub : SubscriptionRecord}
    (hsub : SubscriptionStore.get s.kv name = .ok sub) :
    ∀ r, s.kv.subs.get sub.id = some r → r.topicId = sub.topicId := by
  intro r hr
  obtain ⟨id, _, hid⟩ := get_eq_ok hsub
  rw [(h.consistent.subs.record hid).2, hid, Option.some.injEq] at hr
  rw [hr]

theorem ensures_leaseNext_marks {subId topicId : Nat}
    (ht : ∀ r, s.kv.subs.get subId = some r → r.topicId = topicId)
    (maxMessages nowMs secs : Int) :
    Ensures (leaseNext subId topicId maxMessages nowMs secs) s
      (fun _ t => Gains (MarkCause s op t) s.kv t.kv)
      (fun _ t => Gains (MarkCause s op t) s.kv t.kv) := by
  obtain ⟨a, rfl, rfl, hf, h⟩ := ensures_leaseNext_gains (s := s) subId topicId maxMessages nowMs secs
  exact h.mono (fun _ _ hg => hg.mono fun _ _ hc => hc.mark ht hf)
    (fun _ _ hg => hg.mono fun _ _ hc => hc.mark ht hf)

theorem ensures_touch_marks (subId : Nat) (nowMs : Int) {u : Engine}
    (h : Gains (MarkCause s op u) s.kv u.kv) :
    Ensures (PubSubService.touch subId nowMs) u (fun _ t => Gains (MarkCause s op t) s.kv t.kv)
      (fun _ t => Gains (MarkCause s op t) s.kv t.kv) := by
  have htouch : Keeps (fun kv kv' => kv'.cursors = kv.cursors)
      (SubscriptionStore.touch subId nowMs) := TouchFrame.touch subId nowMs
  simp only [PubSubService.touch, ensures_ignore, onKv, ensures_focus]
  exact (htouch u.kv).mono (fun _ _ he => h.then_eq he) (fun _ _ he => h.then_eq he)

theorem ensures_lease_marks (hg : Grounded s) (nowMs : Int) (h : op.isLease = true) :
    Ensures (perform nowMs op) s (fun _ t => Gains (MarkCause s op t) s.kv t.kv)
      (fun _ t => Gains (MarkCause s op t) s.kv t.kv) := by
  cases op with
  | pull name n =>
    simp only [perform, PubSubService.pullDelivered, PubSubService.attached, ensures_bind,
      ensures_pure, ensures_get, ensures_liftResult, ensures_ite, ensures_throw]
    refine ⟨fun _ _ => ⟨fun sub hsub => ⟨fun _ => gains_of_eq rfl, fun _ => ?_⟩,
      fun _ _ => gains_of_eq rfl⟩, fun _ _ => gains_of_eq rfl⟩
    exact (ensures_leaseNext_marks (hg.topic hsub) n nowMs sub.ackDeadlineSecs).mono
      (fun _ _ hu => ensures_touch_marks sub.id nowMs hu) (fun _ _ hu => hu)
  | leaseForStream sid =>
    simp only [perform, leaseForStream, ensures_bind, ensures_get, ensures_pure]
    cases hinfo : s.streams.info sid with
    | none => exact gains_of_eq rfl
    | some info =>
      obtain ⟨st, hst, rfl⟩ := Option.map_eq_some_iff.mp hinfo
      simp only [ensures_ite, ensures_pure, ensures_bind, ensures_modify]
      refine ⟨fun _ => gains_of_eq rfl, fun _ => ?_⟩
      exact (ensures_leaseNext_marks (hg.session hst) _ nowMs _).mono (fun _ _ hu => hu)
        (fun _ _ hu => hu)
  | _ => cases h

theorem ensures_acknowledge_marks (hg : Grounded s) {subId : Nat} {ackIds : List String}
    (hcall : ackCall s.kv op = some (subId, ackIds)) :
    Ensures (acknowledge subId ackIds) s (fun _ t => Gains (MarkCause s op t) s.kv t.kv)
      (fun _ t => Gains (MarkCause s op t) s.kv t.kv) := by
  have key : ∀ {t : Engine} {id q}, (id = subId ∧ ∃ j, Hit s.leases ackIds j q) →
      MarkCause s op t id q := by
    rintro t id q ⟨rfl, hhit⟩
    exact Or.inl ⟨ackIds, hcall, hhit⟩
  exact (ensures_acknowledge_gains subId ackIds hg.coherent).mono
    (fun _ _ hu => hu.mono fun _ _ => key) (fun _ _ hu => hu.mono fun _ _ => key)

theorem ensures_ack_marks (hg : Grounded s) (nowMs : Int) (h : op.isAck = true) :
    Ensures (perform nowMs op) s (fun _ t => Gains (MarkCause s op t) s.kv t.kv)
      (fun _ t => Gains (MarkCause s op t) s.kv t.kv) := by
  cases op with
  | acknowledge name ackIds =>
    simp only [perform, PubSubService.acknowledge, ensures_bind, ensures_pure, ensures_get,
      ensures_liftResult]
    refine ⟨fun sub hsub => ?_, fun _ _ => gains_of_eq rfl⟩
    have hcall : ackCall s.kv (.acknowledge name ackIds) = some (sub.id, ackIds) := by
      rw [ackCall, subscriptionId, hsub]
      rfl
    exact (ensures_acknowledge_marks hg hcall).mono
      (fun _ _ hu => ensures_touch_marks sub.id nowMs hu) (fun _ _ hu => hu)
  | streamAcknowledge sid subId ackIds =>
    have hcall : ackCall s.kv (.streamAcknowledge sid subId ackIds) = some (subId, ackIds) := rfl
    simp only [perform, PubSubService.streamAcknowledge, streamAcknowledge, ensures_bind,
      ensures_pure, ensures_modify]
    refine (ensures_acknowledge_marks hg hcall).mono (fun _ u hu => ?_) (fun _ _ hu => hu)
    exact ensures_touch_marks (u := { u with streams := _ }) subId nowMs hu
  | _ => cases h

/-- A cursor gains nothing without a cause, wherever the writes of the call stop. -/
theorem ensures_perform_marks (hg : Grounded s) (nowMs : Int) (h : op.isDelivery = true) :
    Ensures (perform nowMs op) s (fun _ t => Gains (MarkCause s op t) s.kv t.kv)
      (fun _ t => Gains (MarkCause s op t) s.kv t.kv) := by
  have hsame : Keeps (OnStore fun kv kv' => kv'.cursors = kv.cursors) (perform nowMs op) →
      Ensures (perform nowMs op) s (fun _ t => Gains (MarkCause s op t) s.kv t.kv)
        (fun _ t => Gains (MarkCause s op t) s.kv t.kv) := fun hk =>
    (hk s).mono (fun _ _ he => gains_of_eq he) (fun _ _ he => gains_of_eq he)
  rcases delivery_cases h with ⟨topic, ms, rfl⟩ | hquiet | hack | hlease
  · exact hsame (Keeps.bind (keeps_publish topic ms nowMs) fun _ => Keeps.pure _)
  · exact hsame (keeps_quiet nowMs hquiet)
  · exact ensures_ack_marks hg nowMs hack
  · exact ensures_lease_marks hg nowMs hlease

end Calls

end OpenPubusb
