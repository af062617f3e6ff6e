import OpenPubusb.LeaseSpec

/-! What each call of the engine does to the slots, on a healthy store. -/

namespace OpenPubusb

open Hoare

structure Engine.WellFormed (s : Engine) : Prop where
  kv : s.kv.WellFormed
  healthy : s.kv.Healthy
  anchored : ∀ {id : Nat} {c : CursorRecord}, s.kv.cursors.get id = some c →
    ∃ r, s.kv.subs.get id = some r
  coherent : s.leases.Coherent
  session : ∀ {sid : Nat} {st : SessionState}, s.streams.sessions.get sid = some st →
    sid ≤ s.streams.nextId ∧ st.info.subId ≤ s.kv.counter ∧
    ∀ r, s.kv.subs.get st.info.subId = some r → r.topicId = st.info.topicId

def Engine.slot (s : Engine) (subId seq : Nat) : Slot :=
  ⟨(s.leases.get subId seq).map Lease.record, s.kv.dlv.get ⟨subId, seq⟩, s.kv.pending subId seq⟩

/-- What a delivery call on `subId` leaves alone. -/
structure CallFrame (subId : Nat) (s t : Engine) : Prop where
  extended : Extended s.kv t.kv
  filled : Filled s.kv t.kv
  cursors : ∀ i ≠ subId, t.kv.cursors.get i = s.kv.cursors.get i
  cursor : (t.kv.cursors.get subId).isSome = (s.kv.cursors.get subId).isSome
  dlv : ∀ i q, i ≠ subId → t.kv.dlv.get ⟨i, q⟩ = s.kv.dlv.get ⟨i, q⟩
  coherent : s.leases.Coherent → t.leases.Coherent
  sessions : ∀ {sid st}, t.streams.sessions.get sid = some st →
    ∃ st', s.streams.sessions.get sid = some st' ∧ st.info = st'.info
  nextId : t.streams.nextId = s.streams.nextId

theorem CallFrame.refl (subId : Nat) (s : Engine) : CallFrame subId s s :=
  ⟨Extended.refl, Filled.refl, fun _ _ => rfl, rfl, fun _ _ _ => rfl, fun h => h,
    fun h => ⟨_, h, rfl⟩, rfl⟩

theorem CallFrame.cursor_of {subId : Nat} {s t : Engine} (h : CallFrame subId s t) {id : Nat}
    {c' : CursorRecord} (hc : t.kv.cursors.get id = some c') :
    ∃ c, s.kv.cursors.get id = some c := by
  by_cases hi : id = subId
  · have hs := h.cursor
    rw [← hi, hc] at hs
    exact Option.isSome_iff_exists.mp hs.symm
  · rw [h.cursors id hi] at hc
    exact ⟨c', hc⟩

theorem CallFrame.wellFormed {subId : Nat} {s t : Engine} (h : CallFrame subId s t)
    (hwf : s.WellFormed) : t.WellFormed where
  kv := h.extended.wellFormed h.cursor_of hwf.kv
  healthy n := by
    rw [h.extended.ok]
    exact hwf.healthy n
  anchored hc := by
    obtain ⟨c, hc'⟩ := h.cursor_of hc
    rw [h.extended.subs]
    exact hwf.anchored hc'
  coherent := h.coherent hwf.coherent
  session {sid st} hst := by
    obtain ⟨st', hst', hi⟩ := h.sessions hst
    rw [h.nextId, Kv.counter, h.extended.idSeq, h.extended.subs, hi]
    exact hwf.session hst'

theorem CallFrame.pending_ne {subId : Nat} {s t : Engine} (h : CallFrame subId s t) {i : Nat}
    (hi : i ≠ subId) (q : Nat) : t.kv.pending i q = s.kv.pending i q := by
  simp only [Kv.pending, h.cursors i hi, h.extended.subs, h.extended.present_eq h.filled]

/-- What a failed lease call reports about a slot it touched. -/
def FailedOutcome (a : LeaseArgs) (policy : ReclaimPolicy) (rows : List (Nat × MessageRecord))
    (seq : Nat) (s t : Engine) : Effect → Prop
  | .granted r => r.deadlineMs = a.deadlineMs ∧ policy.Allows s.kv r.attempts ∧
      logOf t.deadLettered a.subId seq = logOf s.deadLettered a.subId seq ∧
      ∃ m, (seq, m) ∈ rows
  | .forwarded saved => saved = false ∧ ∃ m en, (seq, m) ∈ rows ∧
      logOf t.deadLettered a.subId seq = logOf s.deadLettered a.subId seq ++ [en] ∧
      Copied policy t.kv m en
  | .idle => logOf t.deadLettered a.subId seq = logOf s.deadLettered a.subId seq
  | _ => False

/-- A lease call changes no lease and no log entry of another subscription. -/
structure LeaseFrame (subId : Nat) (s t : Engine) : Prop extends CallFrame subId s t where
  streams : t.streams = s.streams
  leases : ∀ i q, i ≠ subId → t.leases.get i q = s.leases.get i q
  log : ∃ added, t.deadLettered = s.deadLettered ++ added ∧ ∀ en ∈ added, en.subId = subId
  advanced : ∀ {c}, s.kv.cursors.get subId = some c →
    ∃ c', t.kv.cursors.get subId = some c' ∧ c.Advanced c'

theorem LeaseFrame.slot_ne {subId : Nat} {s t : Engine} (h : LeaseFrame subId s t) {i : Nat}
    (hi : i ≠ subId) (q : Nat) : t.slot i q = s.slot i q := by
  simp only [Engine.slot, h.leases i q hi, h.dlv i q hi, h.pending_ne hi q]

structure LeaseDone (a : LeaseArgs) (s t : Engine) (out : List Delivered) : Prop
    extends LeaseFrame a.subId s t where
  slots : ∀ q, ∃ e : Effect,
    e.Enabled (reclaimPolicy s.kv a.subId) a.nowMs (s.slot a.subId q) ∧
    t.slot a.subId q = e.apply (s.slot a.subId q) ∧
    Outcome a (reclaimPolicy s.kv a.subId) (scanPrefix s.kv.msg a.topicId) q s t [] out e
  order : (out.map Delivered.seq).Sublist ((scanPrefix s.kv.msg a.topicId).map Prod.fst)
  seen : ∀ d ∈ out, ∀ q ∈ (scanPrefix s.kv.msg a.topicId).map Prod.fst, q < d.seq →
    (t.slot a.subId q).Seen
  bound : out.length ≤ a.maxMessages

structure LeaseFailed (a : LeaseArgs) (s t : Engine) : Prop extends LeaseFrame a.subId s t where
  slots : ∀ q, ∃ e : Effect,
    e.Enabled (reclaimPolicy s.kv a.subId) a.nowMs (s.slot a.subId q) ∧
    t.slot a.subId q = e.apply (s.slot a.subId q) ∧
    FailedOutcome a (reclaimPolicy s.kv a.subId) (scanPrefix s.kv.msg a.topicId) q s t e
  unsaved : t.kv.cursors = s.kv.cursors

theorem LeaseFrame.refl (subId : Nat) (s : Engine) : LeaseFrame subId s s :=
  ⟨CallFrame.refl subId s, rfl, fun _ _ _ => rfl, ⟨[], by simp, by simp⟩,
    fun {c} hc => ⟨c, hc, .refl c⟩⟩

theorem LeaseFailed.refl (a : LeaseArgs) (s : Engine) : LeaseFailed a s s :=
  ⟨LeaseFrame.refl _ s, fun _ => ⟨.idle, trivial, rfl, rfl⟩, rfl⟩

theorem LeaseDone.refl (a : LeaseArgs) (s : Engine) : LeaseDone a s s [] :=
  ⟨LeaseFrame.refl _ s, fun _ => ⟨.idle, trivial, rfl, rfl, rfl⟩, List.nil_sublist _,
    fun _ h => (by cases h), Nat.zero_le _⟩

theorem scanPrefix_increasing {ν : Type} (m : SortedMap RowKey ν) (id : Nat) :
    ((scanPrefix m id).map Prod.fst).Pairwise (· < ·) :=
  List.pairwise_map.mpr (scanPrefix_sorted m id)

theorem present_of_mem_scanPrefix {kv : Kv} {topicId : Nat} {p : Nat × MessageRecord}
    (h : p ∈ scanPrefix kv.msg topicId) : kv.present topicId p.1 = true := by
  rw [Kv.present, mem_scanPrefix.mp h]
  simp

theorem scanSlot_eq_slot {s : Engine} {a : LeaseArgs} {c : CursorRecord} {r : SubscriptionRecord}
    (hc : s.kv.cursors.get a.subId = some c) (hr : s.kv.subs.get a.subId = some r)
    (ht : r.topicId = a.topicId) (q : Nat) : s.scanSlot a c q = s.slot a.subId q := by
  simp only [Engine.scanSlot, Engine.slot, Kv.pending, hc, hr, ht]

theorem ScanFailed.leaseFailed {s t : Engine} {a : LeaseArgs} {c : CursorRecord}
    {r : SubscriptionRecord} (hc : s.kv.cursors.get a.subId = some c)
    (hr : s.kv.subs.get a.subId = some r) (ht : r.topicId = a.topicId)
    (h : ScanFailed a (reclaimPolicy s.kv a.subId) (scanPrefix s.kv.msg a.topicId) s
      ⟨c, false, []⟩ t) : LeaseFailed a s t := by
  have hframe : LeaseFrame a.subId s t :=
    ⟨⟨h.scanned.extended, h.scanned.filled, fun i _ => by rw [h.scanned.cursors],
      by rw [h.scanned.cursors], h.scanned.dlv, h.scanned.coherent,
      fun hst => ⟨_, h.scanned.streams ▸ hst, rfl⟩, by rw [h.scanned.streams]⟩,
      h.scanned.streams, h.scanned.leases, h.scanned.log,
      fun {c'} hc' => ⟨c', by rw [h.scanned.cursors]; exact hc', .refl c'⟩⟩
  have hpend : ∀ q, t.kv.pending a.subId q = s.kv.pending a.subId q := fun q => by
    simp only [Kv.pending, h.scanned.cursors, h.scanned.extended.subs,
      h.scanned.extended.present_eq h.scanned.filled]
  refine ⟨hframe, fun q => ?_, h.scanned.cursors⟩
  obtain ⟨e, out', hen, hl, hrow, ho⟩ := h.slots q
  rw [scanSlot_eq_slot hc hr ht] at hen hl hrow
  have hslot : t.slot a.subId q = ⟨(e.apply (s.slot a.subId q)).lease,
      (e.apply (s.slot a.subId q)).row, (s.slot a.subId q).pending⟩ := by
    simp only [Engine.slot, hpend, hrow] at hl ⊢
    rw [hl]
  cases e with
  | idle => exact ⟨.idle, trivial, hslot, ho.2⟩
  | granted d =>
    obtain ⟨hd, hlog, hall, m, hm, _⟩ := ho
    exact ⟨.granted d, hen, hslot, hd, hall, hlog, m, hm⟩
  | forwarded saved =>
    obtain ⟨_, _, m, en, hm, hlog, hcopy⟩ := ho
    refine ⟨.forwarded false, hen, ?_, rfl, m, en, hm, hlog, hcopy⟩
    rw [hslot]
    simp [Effect.apply]
  | retired dropped =>
    obtain ⟨rfl, _, _, hlog⟩ := ho
    exact ⟨.idle, trivial, hslot, hlog⟩
  | _ => exact ho.elim

theorem ScanDone.leaseDone {s t : Engine} {a : LeaseArgs} {c : CursorRecord} {sc : Scan}
    {r : SubscriptionRecord} (hc : s.kv.cursors.get a.subId = some c)
    (hr : s.kv.subs.get a.subId = some r) (ht : r.topicId = a.topicId)
    (h : ScanDone a (reclaimPolicy s.kv a.subId) (scanPrefix s.kv.msg a.topicId) s
      ⟨c, false, []⟩ t sc) (hh : s.kv.Healthy) (E : Error → Engine → Prop) :
    Ensures (saveChanged a.subId (sc.cursor, sc.cursorChanged)) t
      (fun _ u => LeaseDone a s u sc.out) E := by
  -- whether or not it is written, the stored cursor ends up as the scan's copy
  have key : ∀ w, ∀ cursors : SortedMap Nat CursorRecord,
      cursors.get a.subId = some sc.cursor →
      (∀ i ≠ a.subId, cursors.get i = s.kv.cursors.get i) →
      LeaseDone a s { t with kv := { t.kv with cursors := cursors, writes := w } } sc.out := by
    intro w cursors hself hne
    have he := h.scanned.extended
    obtain ⟨ds, hds, hsub, hseen⟩ := h.order
    rw [List.nil_append] at hds
    have hlast : ∀ q, ({ t with kv := { t.kv with cursors := cursors, writes := w } } : Engine).slot
        a.subId q = t.scanSlot a sc.cursor q := fun q => by
      refine (scanSlot_eq_slot (a := a) hself ?_ ht q).symm
      change t.kv.subs.get a.subId = some r
      rw [he.subs, hr]
    refine ⟨⟨⟨⟨he.ok, he.idSeq, he.subs, he.idx, he.topics, he.topicNames, he.tail, he.kept,
      he.log⟩, h.scanned.filled, hne, ?_, h.scanned.dlv, h.scanned.coherent, fun hst => ?_, ?_⟩,
      h.scanned.streams, h.scanned.leases, h.scanned.log, fun {c'} hc' => ?_⟩, fun q => ?_,
      ?_, fun d hd q hq hqd => ?_, h.bound (Nat.zero_le _)⟩
    · rw [hc]
      change (cursors.get a.subId).isSome = _
      rw [hself]
      rfl
    · exact ⟨_, h.scanned.streams ▸ hst, rfl⟩
    · exact congrArg StreamRegistry.nextId h.scanned.streams
    · rw [hc, Option.some.injEq] at hc'
      exact ⟨sc.cursor, hself, hc' ▸ h.advanced⟩
    rotate_left
    · exact hds ▸ hsub
    · rw [hlast q]
      exact hseen d (hds ▸ hd) q hq hqd
    · obtain ⟨e, hen, hsl, ho⟩ := h.slots q
      rw [scanSlot_eq_slot hc hr ht] at hen hsl
      refine ⟨e, hen, (hlast q).trans hsl, ?_⟩
      · cases e with
        | forwarded saved =>
          obtain ⟨hs, hd, m, en, hm, hlog, hcopy⟩ := ho
          exact ⟨hs, hd, m, en, hm, hlog, hcopy.topic, hcopy.row, hcopy.tail⟩
        | _ => exact ho
  have hht := h.scanned.healthy hh
  simp only [saveChanged, saveCursor, ensures_ite, ensures_onKv, putCursor,
    ensures_kvWrite_healthy hht, ensures_pure]
  refine ⟨fun _ => ?_, fun hn => ?_⟩
  · refine key _ (t.kv.cursors.insert a.subId sc.cursor) (SortedMap.get_insert_self ..)
      fun i hi => ?_
    rw [SortedMap.get_insert_ne _ _ hi, h.scanned.cursors]
  · have hcur := (h.changed (by simpa using hn)).1
    refine key t.kv.writes t.kv.cursors ?_ fun i _ => by rw [h.scanned.cursors]
    rw [h.scanned.cursors, hc, hcur]

/-- The filter that a lease call applies: the cached one, if there is one. -/
def Engine.filterOf (s : Engine) (subId : Nat) : Option Expr :=
  (s.filters.get subId).getD (storedFilter s.kv subId)

theorem ensures_compiledFilter {s : Engine} {subId : Nat} {Q : Option Expr → Engine → Prop}
    {E : Error → Engine → Prop} (h : ∀ fs, Q (s.filterOf subId) { s with filters := fs }) :
    Ensures (compiledFilter subId) s Q E := by
  simp only [compiledFilter, ensures_bind, ensures_get]
  unfold Engine.filterOf at h
  cases hf : s.filters.get subId with
  | some f =>
    rw [hf] at h
    exact h s.filters
  | none =>
    rw [hf] at h
    exact h _

theorem ensures_leaseNextLocked {s : Engine} {a : LeaseArgs} {c : CursorRecord}
    (hwf : s.WellFormed) (hc : s.kv.cursors.get a.subId = some c)
    (ht : ∀ r, s.kv.subs.get a.subId = some r → r.topicId = a.topicId) :
    Ensures (leaseNextLocked a c) s (fun out t => LeaseDone a s t out)
      (fun _ t => LeaseFailed a s t) := by
  obtain ⟨r, hr⟩ := hwf.anchored hc
  simp only [leaseNextLocked, ensures_bind, ensures_get, ensures_pure]
  refine (ensures_leaseScan _ ⟨c, false, []⟩ (scanPrefix_increasing _ _) hwf.healthy rfl
    fun p hp => present_of_mem_scanPrefix hp).mono (fun sc t h => ?_) (fun _ t h => ?_)
  · exact h.leaseDone hc hr (ht r hr) hwf.healthy _
  · exact h.leaseFailed hc hr (ht r hr)

theorem ensures_leaseNext {s : Engine} (hwf : s.WellFormed) {subId topicId : Nat}
    (ht : ∀ r, s.kv.subs.get subId = some r → r.topicId = topicId)
    (maxMessages nowMs ackDeadlineSecs : Int) :
    Ensures (leaseNext subId topicId maxMessages nowMs ackDeadlineSecs) s
      (fun out t => LeaseDone ⟨subId, topicId, maxMessages.toNat, nowMs, ackDeadlineSecs,
        s.filterOf subId⟩ s t out)
      (fun _ t => LeaseFailed ⟨subId, topicId, maxMessages.toNat, nowMs, ackDeadlineSecs,
        s.filterOf subId⟩ s t) := by
  simp only [leaseNext, ensures_ite, ensures_pure, loadCursor, ensures_bind, ensures_get]
  refine ⟨fun _ => LeaseDone.refl _ s, fun _ => ?_⟩
  cases hc : s.kv.cursors.get subId with
  | none => exact .refl _ s
  | some c =>
    refine ensures_compiledFilter fun fs => ?_
    have hwf' : ({ s with filters := fs } : Engine).WellFormed :=
      ⟨hwf.kv, hwf.healthy, hwf.anchored, hwf.coherent, hwf.session⟩
    refine (ensures_leaseNextLocked (s := { s with filters := fs })
      (a := ⟨subId, topicId, maxMessages.toNat, nowMs, ackDeadlineSecs, s.filterOf subId⟩)
      hwf' hc ht).mono (fun out t h => ?_) (fun _ t h => ?_)
    · exact ⟨⟨⟨h.extended, h.filled, h.cursors, h.cursor, h.dlv, h.coherent, h.sessions, h.nextId⟩,
        h.streams, h.leases, h.log, h.advanced⟩, h.slots, h.order, h.seen, h.bound⟩
    · exact ⟨⟨⟨h.extended, h.filled, h.cursors, h.cursor, h.dlv, h.coherent, h.sessions, h.nextId⟩,
        h.streams, h.leases, h.log, h.advanced⟩, h.slots, h.unsaved⟩

section Ack

variable {s : Engine} {subId : Nat}

def Hit (t : LeaseTable) (ackIds : List String) (i q : Nat) : Prop :=
  ∃ ackId ∈ ackIds, t.Names ackId i q

theorem hit_nil {t : LeaseTable} {i q : Nat} : ¬ Hit t [] i q := by
  rintro ⟨_, h, _⟩
  cases h

theorem names_unique {t : LeaseTable} {ackId : String} {i q i' q' : Nat}
    (h : t.Names ackId i q) (h' : t.Names ackId i' q') : i' = i ∧ q' = q := by
  obtain ⟨l, _, hd⟩ := h
  obtain ⟨l', _, hd'⟩ := h'
  rw [hd] at hd'
  simp only [Option.some.injEq, Prod.mk.injEq] at hd'
  exact ⟨hd'.1.symm, hd'.2.1.symm⟩

theorem names_remove {t : LeaseTable} {ackId : String} {i q i' q' : Nat} :
    (t.remove i q).Names ackId i' q' ↔ ¬ (i' = i ∧ q' = q) ∧ t.Names ackId i' q' := by
  simp only [LeaseTable.Names, LeaseTable.get_remove]
  split_ifs with h
  · simp [h]
  · simp [h]

/-- What the loop of `acknowledge` leaves, on any table. -/
structure AckedAll (subId : Nat) (ackIds : List String) (s : Engine) (c : CursorRecord × Bool)
    (t : Engine) (c' : CursorRecord × Bool) : Prop where
  leases : ∀ i q, (Hit s.leases ackIds i q → t.leases.get i q = none) ∧
    (¬ Hit s.leases ackIds i q → t.leases.get i q = s.leases.get i q)
  dlv : ∀ i q, (i = subId ∧ (∃ j, Hit s.leases ackIds j q) → t.kv.dlv.get ⟨i, q⟩ = none) ∧
    (¬ (i = subId ∧ ∃ j, Hit s.leases ackIds j q) → t.kv.dlv.get ⟨i, q⟩ = s.kv.dlv.get ⟨i, q⟩)
  done : ∀ q, c'.1.isDone q = true ↔ c.1.isDone q = true ∨ ∃ j, Hit s.leases ackIds j q
  changed : c'.2 = false → c'.1 = c.1 ∧ c.2 = false
  kept : (∀ i q, ¬ Hit s.leases ackIds i q) → c' = c
  advanced : c.1.Advanced c'.1
  coherent : t.leases.Coherent
  rest : ∃ dlv w, t.kv = { s.kv with dlv := dlv, writes := w }
  streams : t.streams = s.streams
  log : t.deadLettered = s.deadLettered

theorem ensures_ackAll (ackIds : List String) (hh : s.kv.Healthy) (hc : s.leases.Coherent)
    (c : CursorRecord × Bool) (E : Error → Engine → Prop) :
    Ensures (ackAll subId c ackIds) s (fun c' t => AckedAll subId ackIds s c t c') E := by
  induction ackIds generalizing s c with
  | nil =>
    refine ⟨fun i q => ⟨fun h => absurd h hit_nil, fun _ => rfl⟩,
      fun i q => ⟨fun h => h.2.elim fun _ hk => absurd hk hit_nil, fun _ => rfl⟩, fun q => ?_, fun h => ⟨rfl, h⟩,
      fun _ => rfl, .refl _, hc, ⟨s.kv.dlv, s.kv.writes, rfl⟩, rfl, rfl⟩
    exact ⟨Or.inl, fun h => h.elim id fun hj => hj.elim fun _ hk => absurd hk hit_nil⟩
  | cons ackId ackIds ih =>
    simp only [ackAll, setLeases, ensures_bind, ensures_get, ensures_modify]
    rcases s.leases.resolveAck_cases ackId (fun i q l => (s.leases.remove i q, .applied l)) with
      ⟨i, q, l, hl, hd, he⟩ | ⟨hno, he, hout⟩
    · have hack : s.leases.ack ackId = (s.leases.remove i q, .applied l) := he
      have hseq : l.seq = q := (hc.keyed hl).2
      have hname : s.leases.Names ackId i q := ⟨l, hl, hd⟩
      have hhit : ∀ i' q', Hit s.leases (ackId :: ackIds) i' q' ↔
          i' = i ∧ q' = q ∨ Hit (s.leases.remove i q) ackIds i' q' := by
        intro i' q'
        simp only [Hit, List.mem_cons, exists_eq_or_imp, names_remove]
        constructor
        · rintro (h | ⟨x, hx, h⟩)
          · exact Or.inl (names_unique hname h)
          · by_cases hk : i' = i ∧ q' = q
            · exact Or.inl hk
            · exact Or.inr ⟨x, hx, hk, h⟩
        · rintro (⟨rfl, rfl⟩ | ⟨x, hx, _, h⟩)
          · exact Or.inl hname
          · exact Or.inr ⟨x, hx, h⟩
      simp only [hack, ensures_bind, ensures_onKv, deleteDlv, ensures_kvWrite_healthy hh, hseq]
      refine (ih (s := { s with
          leases := s.leases.remove i q
          kv := { s.kv.tick with dlv := s.kv.dlv.erase ⟨subId, q⟩ } }) (fun n => hh n)
        (hc.remove i q) (markDone c.1 q, true)).mono (fun c' t h => ?_) (fun _ _ h => h)
      refine ⟨fun i' q' => ?_, fun i' q' => ?_, fun q' => ?_, fun hf => ?_,
        fun hno => absurd ((hhit i q).mpr (Or.inl ⟨rfl, rfl⟩)) (hno i q),
        (advanced_markDone c.1 q).trans h.advanced, h.coherent, ?_, h.streams, h.log⟩
      · rw [hhit]
        refine ⟨fun hk => ?_, fun hk => ?_⟩
        · by_cases hr : Hit (s.leases.remove i q) ackIds i' q'
          · exact (h.leases i' q').1 hr
          · rw [(h.leases i' q').2 hr, LeaseTable.get_remove, if_pos (hk.resolve_right hr)]
        · rw [not_or] at hk
          rw [(h.leases i' q').2 hk.2, LeaseTable.get_remove, if_neg hk.1]
      · simp only [hhit]
        by_cases hr : i' = subId ∧ ∃ j, Hit (s.leases.remove i q) ackIds j q'
        · refine ⟨fun _ => (h.dlv i' q').1 hr, fun hk => ?_⟩
          exact absurd ⟨hr.1, hr.2.imp fun _ => Or.inr⟩ hk
        · rw [(h.dlv i' q').2 hr]
          simp only [SortedMap.get_erase, RowKey.mk.injEq]
          refine ⟨fun hk => ?_,
            fun hk => if_neg fun hkey => hk ⟨hkey.1, i, Or.inl ⟨rfl, hkey.2⟩⟩⟩
          obtain ⟨hi, j, hk⟩ := hk
          exact if_pos ⟨hi, (hk.resolve_right fun hk => hr ⟨hi, j, hk⟩).2⟩
      · rw [h.done, markDone_isDone, or_assoc]
        simp only [hhit]
        refine or_congr_right ⟨?_, ?_⟩
        · rintro (rfl | ⟨j, hk⟩)
          · exact ⟨i, Or.inl ⟨rfl, rfl⟩⟩
          · exact ⟨j, Or.inr hk⟩
        · rintro ⟨j, hk | hk⟩
          · exact Or.inl hk.2
          · exact Or.inr ⟨j, hk⟩
      · exact absurd (h.changed hf).2 (by simp)
      · obtain ⟨dlv, w, hkv⟩ := h.rest
        exact ⟨dlv, w, hkv⟩
    · have hack : (s.leases.ack ackId).1 = s.leases := he
      have hhit : ∀ i' q', Hit s.leases (ackId :: ackIds) i' q' ↔ Hit s.leases ackIds i' q' := by
        intro i' q'
        simp [Hit, hno i' q']
      rw [hack]
      have hrest := ih (s := s) hh hc c
      have hskip : Ensures (ackAll subId c ackIds) s
          (fun c' t => AckedAll subId (ackId :: ackIds) s c t c') E := by
        refine hrest.mono (fun c' t h => ?_) (fun _ _ h => h)
        refine ⟨fun i' q' => ?_, fun i' q' => ?_, fun q' => ?_, h.changed,
          fun hno => h.kept fun i' q' hk => hno i' q' ((hhit i' q').mpr hk), h.advanced, h.coherent,
          h.rest, h.streams, h.log⟩
        · rw [hhit]
          exact h.leases i' q'
        · simp only [hhit]
          exact h.dlv i' q'
        · simp only [hhit]
          exact h.done q'
      cases ho : (s.leases.ack ackId).2 with
      | applied l => exact absurd ho (hout l)
      | _ => exact hskip

/-- What `acknowledge` leaves when it returns. -/
structure Acknowledged (subId : Nat) (ackIds : List String) (s t : Engine) : Prop
    extends CallFrame subId s t where
  leases : ∀ i q, (Hit s.leases ackIds i q → t.leases.get i q = none) ∧
    (¬ Hit s.leases ackIds i q → t.leases.get i q = s.leases.get i q)
  row : ∀ q, ((∃ j, Hit s.leases ackIds j q) → t.kv.dlv.get ⟨subId, q⟩ = none) ∧
    (¬ (∃ j, Hit s.leases ackIds j q) → t.kv.dlv.get ⟨subId, q⟩ = s.kv.dlv.get ⟨subId, q⟩)
  done : ∀ {c}, s.kv.cursors.get subId = some c → ∃ c', t.kv.cursors.get subId = some c' ∧
    (∀ q, c'.isDone q = true ↔ c.isDone q = true ∨ ∃ j, Hit s.leases ackIds j q) ∧
    c.Advanced c'
  loaded : ackIds ≠ [] → ∃ c, s.kv.cursors.get subId = some c
  streams : t.streams = s.streams
  log : t.deadLettered = s.deadLettered
  msg : t.kv.msg = s.kv.msg

theorem Acknowledged.refl (subId : Nat) (s : Engine) : Acknowledged subId [] s s where
  toCallFrame := CallFrame.refl subId s
  leases _ _ := ⟨fun h => absurd h hit_nil, fun _ => rfl⟩
  row _ := ⟨fun ⟨_, h⟩ => absurd h hit_nil, fun _ => rfl⟩
  done {c} hc := ⟨c, hc, fun _ => ⟨Or.inl, fun h => h.elim id fun ⟨_, h⟩ => absurd h hit_nil⟩, .refl c⟩
  loaded h := absurd rfl h
  streams := rfl
  log := rfl
  msg := rfl

theorem ensures_acknowledgeLocked (ackIds : List String) (hh : s.kv.Healthy)
    (hc : s.leases.Coherent) {c : CursorRecord} (hcur : s.kv.cursors.get subId = some c)
    (E : Error → Engine → Prop) :
    Ensures (acknowledgeLocked subId c ackIds) s (fun _ t => Acknowledged subId ackIds s t) E := by
  simp only [acknowledgeLocked, ensures_bind]
  refine (ensures_ackAll ackIds hh hc (c, false) _).mono (fun c' t h => ?_) (fun _ _ h => h)
  obtain ⟨dlv, w, hkv⟩ := h.rest
  have key : ∀ w, ∀ cursors : SortedMap Nat CursorRecord, cursors.get subId = some c'.1 →
      (∀ i ≠ subId, cursors.get i = s.kv.cursors.get i) →
      Acknowledged subId ackIds s { t with kv := { t.kv with cursors := cursors, writes := w } } := by
    intro w' cursors hself hother
    have hext : Extended s.kv { t.kv with cursors := cursors, writes := w' } := by
      rw [hkv]
      exact ⟨rfl, rfl, rfl, rfl, rfl, rfl, fun _ => le_rfl, fun _ _ _ => rfl, fun h => h⟩
    have hfill : Filled s.kv { t.kv with cursors := cursors, writes := w' } := by
      rw [hkv]
      exact fun _ _ hlo hhi => absurd (lt_of_lt_of_le hlo hhi) (lt_irrefl _)
    refine ⟨⟨hext, hfill, hother, ?_, fun i q hi => ?_, fun _ => h.coherent, fun hst => ?_, ?_⟩,
      h.leases, fun q => ⟨fun hk => ?_, fun hk => ?_⟩, fun {c₀} hc₀ => ⟨c'.1, hself, ?_⟩,
      fun _ => ⟨c, hcur⟩, h.streams, h.log, by rw [hkv]⟩
    · rw [hcur]
      change (cursors.get subId).isSome = _
      rw [hself]
      rfl
    · exact (h.dlv i q).2 fun hk => hi hk.1
    · exact ⟨_, h.streams ▸ hst, rfl⟩
    · exact congrArg StreamRegistry.nextId h.streams
    · exact (h.dlv subId q).1 ⟨rfl, hk⟩
    · exact (h.dlv subId q).2 fun hk' => hk hk'.2
    · rw [hcur, Option.some.injEq] at hc₀
      subst hc₀
      exact ⟨h.done, h.advanced⟩
  have hht : t.kv.Healthy := by
    rw [hkv]
    exact hh
  simp only [saveChanged, saveCursor, ensures_ite, ensures_onKv, putCursor,
    ensures_kvWrite_healthy hht, ensures_pure]
  refine ⟨fun _ => ?_, fun hn => ?_⟩
  · refine key _ (t.kv.cursors.insert subId c'.1) (SortedMap.get_insert_self ..) fun i hi => ?_
    rw [SortedMap.get_insert_ne _ _ hi, hkv]
  · have hsame := (h.changed (by simpa using hn)).1
    refine key t.kv.writes t.kv.cursors ?_ fun i _ => by rw [hkv]
    rw [hkv, hsame]
    exact hcur

theorem ensures_acknowledge (ackIds : List String) (hh : s.kv.Healthy) (hc : s.leases.Coherent) :
    Ensures (acknowledge subId ackIds) s (fun _ t => Acknowledged subId ackIds s t)
      (fun _ t => t = s ∧ s.kv.cursors.get subId = none) := by
  simp only [acknowledge, ensures_ite, ensures_pure, loadCursor, ensures_bind, ensures_get]
  refine ⟨fun hnil => hnil ▸ Acknowledged.refl subId s, fun hne => ?_⟩
  cases hcur : s.kv.cursors.get subId with
  | none => exact ⟨rfl, rfl⟩
  | some c => exact ensures_acknowledgeLocked ackIds hh hc hcur _

theorem names_reschedule {t : LeaseTable} {ackId : String} {i q i' q' : Nat} {l : Lease}
    (hl : t.get i q = some l) (d : Int) :
    (t.reschedule i q l d).Names ackId i' q' ↔ t.Names ackId i' q' := by
  simp only [LeaseTable.Names, LeaseTable.get_reschedule]
  split_ifs with h
  · simp [h, hl]
  · rfl

/-- What `modify_ack_deadline` leaves when all ids that name a lease name one of
the subscription. -/
structure Rescheduled (subId : Nat) (ackIds : List String) (d : Int) (s t : Engine) : Prop where
  leases : ∀ i q, (i = subId ∧ Hit s.leases ackIds subId q →
      t.leases.get i q = (s.leases.get i q).map (fun l => { l with deadlineMs := d })) ∧
    (¬ (i = subId ∧ Hit s.leases ackIds subId q) → t.leases.get i q = s.leases.get i q)
  dlv : ∀ i q, (i = subId ∧ Hit s.leases ackIds subId q →
      t.kv.dlv.get ⟨i, q⟩ = (s.leases.get i q).map (fun l => { l.record with deadlineMs := d })) ∧
    (¬ (i = subId ∧ Hit s.leases ackIds subId q) → t.kv.dlv.get ⟨i, q⟩ = s.kv.dlv.get ⟨i, q⟩)
  coherent : t.leases.Coherent
  rest : ∃ dlv w, t.kv = { s.kv with dlv := dlv, writes := w }
  streams : t.streams = s.streams
  log : t.deadLettered = s.deadLettered

theorem ensures_modifyAckDeadline (ackIds : List String) (nowMs seconds : Int)
    (hh : s.kv.Healthy) (hc : s.leases.Coherent)
    (hown : ∀ ackId ∈ ackIds, ∀ i q, s.leases.Names ackId i q → i = subId)
    (E : Error → Engine → Prop) :
    Ensures (modifyAckDeadline subId ackIds nowMs seconds) s
      (fun _ t => Rescheduled subId ackIds (LeaseTable.extendedDeadline nowMs seconds) s t) E := by
  induction ackIds generalizing s with
  | nil =>
    exact ⟨fun i q => ⟨fun h => absurd h.2 hit_nil, fun _ => rfl⟩,
      fun i q => ⟨fun h => absurd h.2 hit_nil, fun _ => rfl⟩, hc,
      ⟨s.kv.dlv, s.kv.writes, rfl⟩, rfl, rfl⟩
  | cons ackId ackIds ih =>
    simp only [modifyAckDeadline, setLeases, ensures_bind, ensures_get, ensures_modify]
    rcases s.leases.resolveAck_cases ackId
      (fun i q l => (s.leases.reschedule i q l (LeaseTable.extendedDeadline nowMs seconds),
        .applied { l with deadlineMs := LeaseTable.extendedDeadline nowMs seconds })) with
      ⟨i, q, l, hl, hd, he⟩ | ⟨hno, he, hout⟩
    · have hext : s.leases.extend ackId nowMs seconds =
          (s.leases.reschedule i q l (LeaseTable.extendedDeadline nowMs seconds),
            .applied { l with deadlineMs := LeaseTable.extendedDeadline nowMs seconds }) := he
      have hseq : l.seq = q := (hc.keyed hl).2
      have hname : s.leases.Names ackId i q := ⟨l, hl, hd⟩
      obtain rfl : i = subId := hown ackId List.mem_cons_self i q hname
      have hhit : ∀ q', Hit s.leases (ackId :: ackIds) i q' ↔
          q' = q ∨ Hit (s.leases.reschedule i q l (LeaseTable.extendedDeadline nowMs seconds))
            ackIds i q' := by
        intro q'
        simp only [Hit, List.mem_cons, exists_eq_or_imp, names_reschedule hl]
        refine or_congr_left ⟨fun h => (names_unique hname h).2, fun h => h ▸ hname⟩
      simp only [hext, ensures_bind, ensures_onKv, putDlv, ensures_kvWrite_healthy hh, hseq]
      refine (ih (s := { s with
          leases := s.leases.reschedule i q l (LeaseTable.extendedDeadline nowMs seconds)
          kv := { s.kv.tick with
            dlv := s.kv.dlv.insert ⟨i, q⟩
              ⟨LeaseTable.extendedDeadline nowMs seconds, l.attempts, l.generation⟩ } })
        (fun n => hh n) (hc.reschedule hl _) (fun x hx i' q' hx' => ?_)).mono
        (fun _ t h => ?_) (fun _ _ h => h)
      · exact hown x (List.mem_cons_of_mem _ hx) i' q' ((names_reschedule hl _).mp hx')
      · refine ⟨fun i' q' => ?_, fun i' q' => ?_, h.coherent, h.rest, h.streams, h.log⟩
        · simp only [hhit]
          by_cases hr : i' = i ∧ Hit (s.leases.reschedule i q l
              (LeaseTable.extendedDeadline nowMs seconds)) ackIds i q'
          · refine ⟨fun _ => ?_, fun hk => absurd ⟨hr.1, Or.inr hr.2⟩ hk⟩
            rw [(h.leases i' q').1 hr, LeaseTable.get_reschedule]
            split_ifs with hk
            · rw [hk.1, hk.2, hl]
              rfl
            · rfl
          · rw [(h.leases i' q').2 hr, LeaseTable.get_reschedule]
            refine ⟨fun hk => ?_, fun hk => if_neg fun hkey => hk ⟨hkey.1, Or.inl hkey.2⟩⟩
            have hq := hk.2.resolve_right fun hk' => hr ⟨hk.1, hk'⟩
            rw [if_pos ⟨hk.1, hq⟩, hk.1, hq, hl]
            rfl
        · simp only [hhit]
          by_cases hr : i' = i ∧ Hit (s.leases.reschedule i q l
              (LeaseTable.extendedDeadline nowMs seconds)) ackIds i q'
          · refine ⟨fun _ => ?_, fun hk => absurd ⟨hr.1, Or.inr hr.2⟩ hk⟩
            rw [(h.dlv i' q').1 hr, LeaseTable.get_reschedule]
            split_ifs with hk
            · rw [hk.1, hk.2, hl]
              rfl
            · rfl
          · rw [(h.dlv i' q').2 hr]
            simp only [SortedMap.get_insert, RowKey.mk.injEq]
            refine ⟨fun hk => ?_, fun hk => if_neg fun hkey => hk ⟨hkey.1, Or.inl hkey.2⟩⟩
            have hq := hk.2.resolve_right fun hk' => hr ⟨hk.1, hk'⟩
            rw [if_pos ⟨hk.1, hq⟩, hk.1, hq, hl]
            rfl
    · have hext : (s.leases.extend ackId nowMs seconds).1 = s.leases := he
      have hhit : ∀ q', Hit s.leases (ackId :: ackIds) subId q' ↔ Hit s.leases ackIds subId q' := by
        intro q'
        simp [Hit, hno subId q']
      rw [hext]
      have hskip : Ensures (modifyAckDeadline subId ackIds nowMs seconds) s
          (fun _ t => Rescheduled subId (ackId :: ackIds)
            (LeaseTable.extendedDeadline nowMs seconds) s t) E := by
        refine (ih hh hc fun x hx => hown x (List.mem_cons_of_mem _ hx)).mono (fun _ t h => ?_)
          (fun _ _ h => h)
        refine ⟨fun i' q' => ?_, fun i' q' => ?_, h.coherent, h.rest, h.streams, h.log⟩
        · rw [hhit]
          exact h.leases i' q'
        · rw [hhit]
          exact h.dlv i' q'
      cases ho : (s.leases.extend ackId nowMs seconds).2 with
      | applied l => exact absurd ho (hout l)
      | _ => exact hskip

end Ack

section Release

variable {s : Engine} {subId : Nat}

/-- The leases and the rows at the seqs `qs` of a subscription are gone, and
nothing else in the table or the store changed. -/
structure Released (subId : Nat) (qs : Nat → Prop) (s t : Engine) : Prop where
  leases : ∀ i q, (i = subId ∧ qs q → t.leases.get i q = none) ∧
    (¬ (i = subId ∧ qs q) → t.leases.get i q = s.leases.get i q)
  dlv : ∀ i q, (i = subId ∧ qs q → t.kv.dlv.get ⟨i, q⟩ = none) ∧
    (¬ (i = subId ∧ qs q) → t.kv.dlv.get ⟨i, q⟩ = s.kv.dlv.get ⟨i, q⟩)
  coherent : s.leases.Coherent → t.leases.Coherent
  rest : ∃ dlv w, t.kv = { s.kv with dlv := dlv, writes := w }
  streams : t.streams = s.streams
  log : t.deadLettered = s.deadLettered

theorem ensures_releaseAll (seqs : List Nat) (hh : s.kv.Healthy) (E : Error → Engine → Prop) :
    Ensures (releaseAll subId seqs) s (fun _ t => Released subId (· ∈ seqs) s t) E := by
  induction seqs generalizing s with
  | nil =>
    exact ⟨fun i q => ⟨fun h => absurd h.2 List.not_mem_nil, fun _ => rfl⟩,
      fun i q => ⟨fun h => absurd h.2 List.not_mem_nil, fun _ => rfl⟩, fun h => h,
      ⟨s.kv.dlv, s.kv.writes, rfl⟩, rfl, rfl⟩
  | cons seq seqs ih =>
    simp only [releaseAll, removeLease, ensures_bind, ensures_modify, ensures_ignore, ensures_onKv,
      deleteDlv, ensures_kvWrite_healthy hh]
    refine (ih (s := { s with
        leases := s.leases.remove subId seq
        kv := { s.kv.tick with dlv := s.kv.dlv.erase ⟨subId, seq⟩ } }) fun n => hh n).mono
      (fun _ t h => ?_) (fun _ _ h => h)
    refine ⟨fun i q => ?_, fun i q => ?_, fun hc => h.coherent (hc.remove ..), h.rest, h.streams,
      h.log⟩
    · by_cases hr : i = subId ∧ q ∈ seqs
      · refine ⟨fun _ => (h.leases i q).1 hr, fun hk => ?_⟩
        exact absurd ⟨hr.1, List.mem_cons_of_mem _ hr.2⟩ hk
      · rw [(h.leases i q).2 hr, LeaseTable.get_remove]
        refine ⟨fun hk => if_pos ⟨hk.1, ?_⟩, fun hk => if_neg fun hq => hk ⟨hq.1, by simp [hq.2]⟩⟩
        exact (List.mem_cons.mp hk.2).resolve_right fun hm => hr ⟨hk.1, hm⟩
    · by_cases hr : i = subId ∧ q ∈ seqs
      · refine ⟨fun _ => (h.dlv i q).1 hr, fun hk => ?_⟩
        exact absurd ⟨hr.1, List.mem_cons_of_mem _ hr.2⟩ hk
      · rw [(h.dlv i q).2 hr]
        simp only [SortedMap.get_erase, RowKey.mk.injEq]
        refine ⟨fun hk => if_pos ⟨hk.1, ?_⟩, fun hk => if_neg fun hq => hk ⟨hq.1, by simp [hq.2]⟩⟩
        exact (List.mem_cons.mp hk.2).resolve_right fun hm => hr ⟨hk.1, hm⟩

theorem ensures_deleteDlvAll (seqs : List Nat) {kv : Kv} (hh : kv.Healthy)
    (E : Error → Kv → Prop) :
    Ensures (deleteDlvAll subId seqs) kv
      (fun _ kv' => (∃ dlv w, kv' = { kv with dlv := dlv, writes := w }) ∧
        ∀ i q, kv'.dlv.get ⟨i, q⟩ =
          if i = subId ∧ q ∈ seqs then none else kv.dlv.get ⟨i, q⟩) E := by
  induction seqs generalizing kv with
  | nil => exact ⟨⟨kv.dlv, kv.writes, rfl⟩, fun i q => by simp⟩
  | cons seq seqs ih =>
    simp only [deleteDlvAll, deleteDlv, ensures_bind, ensures_kvWrite_healthy hh]
    refine (@ih { kv.tick with dlv := kv.dlv.erase ⟨subId, seq⟩ } fun n => hh n).mono
      (fun _ kv' h => ⟨h.1, fun i q => ?_⟩) (fun _ _ h => h)
    rw [h.2]
    simp only [SortedMap.get_erase, RowKey.mk.injEq, List.mem_cons]
    by_cases hi : i = subId
    · by_cases hq : q ∈ seqs
      · simp [hi, hq]
      · simp [hi, hq]
    · simp [hi]

/-- What a seek leaves: the cursor `c`, and no lease and no row. -/
structure Restored (subId : Nat) (c : CursorRecord) (s t : Engine) : Prop where
  leases : ∀ i q, t.leases.get i q = if i = subId then none else s.leases.get i q
  dlv : ∀ i q, t.kv.dlv.get ⟨i, q⟩ = if i = subId then none else s.kv.dlv.get ⟨i, q⟩
  coherent : s.leases.Coherent → t.leases.Coherent
  rest : ∃ dlv w, t.kv =
    { s.kv with dlv := dlv, cursors := s.kv.cursors.insert subId c, writes := w }
  streams : t.streams = s.streams
  log : t.deadLettered = s.deadLettered

theorem ensures_restoreCursor (c : CursorRecord) (hh : s.kv.Healthy)
    (E : Error → Engine → Prop) :
    Ensures (restoreCursor subId c) s (fun _ t => Restored subId c s t) E := by
  simp only [restoreCursor, setLeases, saveCursor, ensures_bind, ensures_get, ensures_modify,
    ensures_onKv]
  refine (ensures_deleteDlvAll _ hh _).mono (fun _ kv₁ hfirst => ?_) (fun _ _ h => h)
  obtain ⟨⟨d₁, w₁, h₁⟩, hd₁⟩ := hfirst
  have hh₁ : kv₁.Healthy := by
    rw [h₁]
    exact hh
  refine (ensures_deleteDlvAll _ hh₁ _).mono (fun _ kv₂ hsecond => ?_) (fun _ _ h => h)
  obtain ⟨⟨d₂, w₂, h₂⟩, hd₂⟩ := hsecond
  have hh₂ : kv₂.Healthy := by
    rw [h₂]
    exact hh₁
  simp only [putCursor, ensures_kvWrite_healthy hh₂]
  refine ⟨fun i q => s.leases.get_removeAllForSubscription subId i q, fun i q => ?_,
    fun hc => LeaseTable.coherent_removeAll hc _ _, ⟨d₂, w₂ + 1, ?_⟩, rfl, rfl⟩
  · change kv₂.dlv.get ⟨i, q⟩ = _
    rw [hd₂]
    by_cases hi : i = subId
    · subst hi
      by_cases hq : q ∈ (scanPrefix kv₁.dlv i).map Prod.fst
      · simp [hq]
      · cases hr : kv₁.dlv.get ⟨i, q⟩ with
        | none => simp
        | some r =>
          exact absurd (List.mem_map.mpr ⟨(q, r), mem_scanPrefix.mpr hr, rfl⟩) hq
    · simp [hi, hd₁]
  · rw [h₂, h₁]
    rfl

end Release

end OpenPubusb
