import Mathlib.Algebra.Order.BigOperators.Group.List
import OpenPubusb.StreamSteps

/-! The byte total of a stream is the sum of the sizes it tracks, unless the
stream is handed out again a message it still tracks. -/

namespace OpenPubusb

/-- Payload bytes of all messages stored for a topic. -/
def logBytes (kv : Kv) (topicId : Nat) : Nat :=
  ((scanPrefix kv.msg topicId).map (fun row => row.2.payload.length)).sum

/-- When a stream asks for messages, none of those it tracks with a size is due
again, and the bytes of the log fit on top of its total. -/
def Accountable (s : Engine) (i : Input) : Prop :=
  ∀ sid st, i.op = .leaseForStream sid → s.streams.sessions.get sid = some st →
    (∀ q n, st.outstanding.get q = some n → n ≠ 0 → ¬ Redeliverable s st.info.subId i.nowMs q) ∧
    (st.outstanding.total : Int) + logBytes s.kv st.info.topicId ≤ i64Max

structure Accounted (st : SessionState) : Prop where
  bytes : st.outstandingBytes = st.outstanding.total
  bound : (st.outstanding.total : Int) ≤ i64Max

theorem total_eq_zero {m : SortedMap Nat Nat} (h : m.size = 0) : m.total = 0 := by
  rw [SortedMap.total, List.length_eq_zero_iff.mp h]
  rfl

theorem accounted_leased {st : SessionState} {q n : Nat} (h : Accounted st)
    (hz : (st.outstanding.get q).getD 0 = 0) (hfit : (st.outstanding.total : Int) + n ≤ i64Max) :
    Accounted (StreamRegistry.leased st q n) ∧
      (StreamRegistry.leased st q n).outstanding.total = st.outstanding.total + n := by
  have htotal := st.outstanding.total_insert q n
  rw [hz, Nat.add_zero] at htotal
  refine ⟨⟨?_, ?_⟩, htotal⟩
  · simp only [StreamRegistry.leased, htotal, satAddI64, h.bytes]
    rw [satI64_of_range (by simp only [i64Min]; omega) hfit]
    push_cast
    rfl
  · simp only [StreamRegistry.leased, htotal]
    push_cast
    exact hfit

theorem accounted_leasedAll {st : SessionState} (ds : List Delivered) (h : Accounted st)
    (hnodup : (ds.map Delivered.seq).Nodup)
    (hz : ∀ d ∈ ds, (st.outstanding.get d.seq).getD 0 = 0)
    (hfit : (st.outstanding.total : Int) + (ds.map (·.message.payload.length)).sum ≤ i64Max) :
    Accounted (leasedAll st ds) := by
  induction ds generalizing st with
  | nil => exact h
  | cons d ds ih =>
    rw [List.map_cons, List.nodup_cons] at hnodup
    simp only [List.map_cons, List.sum_cons, Nat.cast_add] at hfit
    obtain ⟨hacc, htotal⟩ := accounted_leased (q := d.seq) (n := d.message.payload.length) h
      (hz d List.mem_cons_self) (by omega)
    refine ih hacc hnodup.2 (fun d' hd' => ?_) (by rw [htotal, Nat.cast_add]; omega)
    have hne : d'.seq ≠ d.seq := fun he => hnodup.1 (he ▸ List.mem_map_of_mem hd')
    simp only [StreamRegistry.leased, SortedMap.get_insert_ne _ _ hne]
    exact hz d' (List.mem_cons_of_mem _ hd')

theorem accounted_resolved {st : SessionState} (h : Accounted st) (q : Nat) :
    Accounted (StreamRegistry.resolved st q) := by
  unfold StreamRegistry.resolved
  cases hq : st.outstanding.get q with
  | none => exact h
  | some n =>
    have htotal := st.outstanding.total_erase q
    rw [hq, Option.getD_some] at htotal
    have hb := h.bound
    refine ⟨?_, ?_⟩
    · simp only [satSubI64, h.bytes]
      rw [satI64_of_range (by simp only [i64Min]; omega) (by omega)]
      omega
    · simp only
      omega

theorem Batch.bytes_le {s : Engine} {nowMs : Int} {subId topicId : Nat} {ds : List Delivered}
    (h : Batch s nowMs subId topicId ds) :
    (ds.map (·.message.payload.length)).sum ≤ logBytes s.kv topicId := by
  have hnodup : (ds.map (fun d => (d.seq, d.message))).Nodup := by
    refine List.Nodup.of_map Prod.fst ?_
    rw [List.map_map]
    exact h.nodup
  have hsub : ds.map (fun d => (d.seq, d.message)) ⊆ scanPrefix s.kv.msg topicId := by
    intro p hp
    obtain ⟨d, hd, rfl⟩ := List.mem_map.mp hp
    exact h.row d hd
  obtain ⟨l, hperm, hl⟩ := List.subperm_of_subset hnodup hsub
  calc (ds.map (·.message.payload.length)).sum
      = ((ds.map (fun d => (d.seq, d.message))).map (fun row => row.2.payload.length)).sum := by
        rw [List.map_map]
        rfl
    _ = (l.map (fun row => row.2.payload.length)).sum := (hperm.map _).sum_nat.symm
    _ ≤ logBytes s.kv topicId := (hl.map _).sum_le_sum (fun _ _ => Nat.zero_le _)

def AllAccounted (s : Engine) : Prop :=
  ∀ {sid st}, s.streams.sessions.get sid = some st → Accounted st

theorem allAccounted_step {s : Engine} {i : Input} (hwf : s.WellFormed) (h : AllAccounted s)
    (hc : Accountable s i) : AllAccounted (step s i).2 := by
  intro sid st' hst'
  cases sessionStep hwf hst' with
  | opened _ hout hbytes =>
    have hz : st'.outstanding.total = 0 := total_eq_zero (by rw [hout]; rfl)
    refine ⟨?_, ?_⟩
    · rw [hbytes, hz]
      rfl
    · rw [hz]
      decide
  | kept st hst _ _ hout hbytes _ =>
    have hacc := h hst
    refine ⟨?_, ?_⟩
    · rw [hout, hbytes]
      exact hacc.bytes
    · rw [hout]
      exact hacc.bound
  | leased st hst ds hop hr hst' =>
    have hb := step_batch hwf hop hst hr
    obtain ⟨hheld, hfit⟩ := hc sid st hop hst
    rw [hst']
    refine accounted_leasedAll ds (h hst) hb.nodup (fun d hd => ?_) ?_
    · cases hq : st.outstanding.get d.seq with
      | none => rfl
      | some n =>
        by_contra hn
        exact hheld d.seq n hq hn (hb.due d hd)
    · have hle := hb.bytes_le
      omega
  | resolved st hst ackIds _ _ hst' =>
    rw [hst']
    exact resolvedAll_induction (h hst) (fun _ q hq => accounted_resolved hq q) ackIds

/-- The budget of a stream that tracks nothing. -/
def fullBudget (info : StreamInfo) : Int × Int :=
  (if info.maxOutstandingMessages ≤ 0 then i64Max else info.maxOutstandingMessages,
   if info.maxOutstandingBytes ≤ 0 then i64Max else info.maxOutstandingBytes)

theorem sessionBudget_eq_full {st : SessionState} (hsize : st.outstanding.size = 0)
    (hbytes : st.outstandingBytes = 0) :
    StreamRegistry.sessionBudget st = fullBudget st.info := by
  simp only [StreamRegistry.sessionBudget, fullBudget, hsize, hbytes, Nat.cast_zero, sub_zero]
  refine Prod.ext ?_ ?_
  · simp only
    split_ifs with h
    · rfl
    · exact max_eq_left (le_of_lt (not_le.mp h))
  · simp only
    split_ifs with h
    · rfl
    · exact max_eq_left (le_of_lt (not_le.mp h))

theorem bytes_never_drift (is : List Input)
    (hc : ∀ tr ∈ history is, Accountable tr.pre tr.input) {sid : Nat} {st : SessionState}
    (hst : (Run.final step start is).streams.sessions.get sid = some st) :
    st.outstandingBytes = st.outstanding.total ∧
    (st.outstanding.size = 0 →
      (Run.final step start is).streams.remainingBudget sid = fullBudget st.info) := by
  have hinv : (Run.final step start is).WellFormed ∧ AllAccounted (Run.final step start is) :=
    Run.inv_final (P := fun s => s.WellFormed ∧ AllAccounted s)
      (C := fun tr => Accountable tr.pre tr.input)
      (fun s i h hc => ⟨wellFormed_step h.1 i, fun {_ _} => allAccounted_step h.1 h.2 hc⟩)
      ⟨wellFormed_start, fun h => by cases h⟩ hc
  have hacc := hinv.2 hst
  refine ⟨hacc.bytes, fun hsize => ?_⟩
  rw [StreamRegistry.remainingBudget, hst]
  refine sessionBudget_eq_full hsize ?_
  rw [hacc.bytes, total_eq_zero hsize]
  rfl

/-- A stream on `subA` with a byte budget that leases the message at `1000`. -/
def streamLease : List Input :=
  setup {} ++ [⟨0, .openStream "projects/p/subscriptions/subA" 10 0 100⟩]

def leaseAt (nowMs : Int) : Input := ⟨nowMs, .leaseForStream 1⟩

theorem streamLease_accounted :
    ∃ st, (Run.final step start (streamLease ++ [leaseAt 1000])).streams.sessions.get 1 = some st ∧
      st.outstanding.size = 1 ∧ st.outstandingBytes = st.outstanding.total := by
  have hrun : ((Run.final step start (streamLease ++ [leaseAt 1000])).streams.sessions.get 1).map
      (fun st => st.outstanding.size) = some 1 := by decide +kernel
  obtain ⟨st, hst, hsize⟩ := Option.map_eq_some_iff.mp hrun
  have hfirst : ((Run.final step start streamLease).streams.sessions.get 1).map
      (fun st => (st.outstanding.keys, st.outstanding.total + logBytes
        (Run.final step start streamLease).kv st.info.topicId)) = some ([], 3) := by decide +kernel
  refine ⟨st, hst, hsize, (bytes_never_drift _ ?_ hst).1⟩
  rw [history, Run.trace_append, List.forall_mem_append]
  refine ⟨Run.forall_trace_of_inputs fun i hi s sid st hop => ?_, fun tr htr => ?_⟩
  · simp only [streamLease, setup, List.mem_append, List.mem_cons, List.not_mem_nil, or_false] at hi
    rcases hi with (rfl | rfl | rfl | rfl) | rfl <;> cases hop
  · rw [List.mem_singleton.mp htr]
    rintro sid st' hop hst'
    cases hop
    obtain ⟨st₀, hst₀, hboth⟩ := Option.map_eq_some_iff.mp hfirst
    rw [Prod.mk.injEq] at hboth
    change (Run.final step start streamLease).streams.sessions.get 1 = some st' at hst'
    rw [hst₀, Option.some.injEq] at hst'
    subst hst'
    refine ⟨fun q n hq => ?_, ?_⟩
    · have hmem := SortedMap.mem_keys.mpr ⟨n, hq⟩
      rw [hboth.1] at hmem
      cases hmem
    · have hle : st₀.outstanding.total + logBytes (Run.final step start streamLease).kv
          st₀.info.topicId = 3 := hboth.2
      change (st₀.outstanding.total : Int) + logBytes (Run.final step start streamLease).kv
        st₀.info.topicId ≤ i64Max
      simp only [i64Max]
      omega

/-- Its lease runs out, the stream is handed out the message once more, and the
message counts twice. -/
theorem lease_again_counts_twice :
    ∃ st, (Run.final step start (streamLease ++ [leaseAt 1000, leaseAt 12000])).streams.sessions.get
      1 = some st ∧ st.outstandingBytes ≠ st.outstanding.total := by
  have hrun : ((Run.final step start (streamLease ++
      [leaseAt 1000, leaseAt 12000])).streams.sessions.get 1).map
        (fun st => (st.outstandingBytes, st.outstanding.total)) = some (6, 3) := by decide +kernel
  obtain ⟨st, hst, hboth⟩ := Option.map_eq_some_iff.mp hrun
  rw [Prod.mk.injEq] at hboth
  refine ⟨st, hst, ?_⟩
  rw [hboth.1, hboth.2]
  decide

end OpenPubusb
