import OpenPubusb.LeaseGc

/-! Any sequence of calls on a lease table keeps its two indexes in step, so an expiry
finds each due lease once, in the order of the deadlines. -/

namespace OpenPubusb

/-- The calls that change a lease table. -/
inductive TableCall where
  | insert (subId seq : Nat) (deadlineMs : Int) (attempts generation : Nat)
  | remove (subId seq : Nat)
  | ack (ackId : String)
  | extend (ackId : String) (nowMs secs : Int)
  | nackNow (subId seq : Nat) (nowMs : Int)
  | expireUpTo (nowMs : Int)
  | removeAllForSubscription (subId : Nat)

def Lease.deadlineKey (l : Lease) : DeadlineKey := ⟨l.deadlineMs, l.subId, l.seq⟩

def Lease.expired (l : Lease) : ExpiredLease := ⟨l.subId, l.seq, l.attempts, l.generation⟩

namespace LeaseTable

def perform (t : LeaseTable) : TableCall → LeaseTable
  | .insert subId seq deadlineMs attempts generation =>
    t.insert subId seq deadlineMs attempts generation
  | .remove subId seq => t.remove subId seq
  | .ack ackId => (t.ack ackId).1
  | .extend ackId nowMs secs => (t.extend ackId nowMs secs).1
  | .nackNow subId seq nowMs => (t.nackNow subId seq nowMs).1
  | .expireUpTo nowMs => (t.expireUpTo nowMs).1
  | .removeAllForSubscription subId => (t.removeAllForSubscription subId).1

/-- `expire_up_to` reports the leases due by `nowMs`, each once and by deadline, and leaves
the others. -/
structure Expires (t : LeaseTable) (nowMs : Int) : Prop where
  reported : ∃ ls : List Lease, (t.expireUpTo nowMs).2 = ls.map Lease.expired ∧ ls.Nodup ∧
    ls.Pairwise (fun l l' => l.deadlineMs ≤ l'.deadlineMs) ∧
    ∀ l, l ∈ ls ↔ t.get l.subId l.seq = some l ∧ l.deadlineMs ≤ nowMs
  left : ∀ s q, (t.expireUpTo nowMs).1.get s q = (t.get s q).filter fun l => nowMs < l.deadlineMs

variable {t : LeaseTable}

theorem Coherent.nackNow (h : t.Coherent) (s q : Nat) (nowMs : Int) :
    (t.nackNow s q nowMs).1.Coherent := by
  unfold LeaseTable.nackNow
  cases hl : t.get s q with
  | none => exact h
  | some l => exact h.reschedule hl nowMs

theorem Coherent.perform (h : t.Coherent) (c : TableCall) : (t.perform c).Coherent := by
  cases c with
  | insert s q d a g => exact h.insert s q d a g
  | remove s q => exact h.remove s q
  | ack ackId => exact h.ack ackId
  | extend ackId nowMs secs => exact h.extend ackId nowMs secs
  | nackNow s q nowMs => exact h.nackNow s q nowMs
  | expireUpTo nowMs => exact (expireUpTo_spec h nowMs).1
  | removeAllForSubscription s => exact coherent_removeAll h s _

theorem coherent_calls (h : t.Coherent) (calls : List TableCall) :
    (calls.foldl LeaseTable.perform t).Coherent := by
  induction calls generalizing t with
  | nil => exact h
  | cons c calls ih => exact ih (h.perform c)

theorem Coherent.mem_deadlines (h : t.Coherent) {k : DeadlineKey} :
    k ∈ t.byDeadline.keys ↔ ∃ l, t.get k.subId k.seq = some l ∧ l.deadlineMs = k.deadlineMs := by
  rw [SortedMap.mem_keys, ← h.indexed]
  exact ⟨fun ⟨_, hk⟩ => hk, fun hk => ⟨(), hk⟩⟩

theorem Coherent.get_due (h : t.Coherent) {k : DeadlineKey} (hk : k ∈ t.byDeadline.keys) :
    ∃ l, t.get k.subId k.seq = some l ∧ l.deadlineKey = k := by
  obtain ⟨l, hl, hd⟩ := h.mem_deadlines.mp hk
  obtain ⟨hs, hq⟩ := h.keyed hl
  refine ⟨l, hl, ?_⟩
  rw [Lease.deadlineKey, hs, hq, hd]

theorem expireKeys_reported (h : t.Coherent) {ks : List DeadlineKey} (hnd : ks.Nodup)
    (hks : ∀ k ∈ ks, k ∈ t.byDeadline.keys) :
    ∃ ls : List Lease, (t.expireKeys ks).2 = ls.map Lease.expired ∧
      ls.map Lease.deadlineKey = ks ∧ ∀ l ∈ ls, t.get l.subId l.seq = some l := by
  induction ks generalizing t with
  | nil => exact ⟨[], rfl, rfl, fun l hl => absurd hl List.not_mem_nil⟩
  | cons k ks ih =>
    obtain ⟨hnk, hnd⟩ := List.nodup_cons.mp hnd
    obtain ⟨l, hl, hkey⟩ := h.get_due (hks k List.mem_cons_self)
    have hrem : (⟨t.byDeadline.erase k, t.byKey.erase ⟨k.subId, k.seq⟩⟩ : LeaseTable) =
        t.remove k.subId k.seq := by
      obtain ⟨_, hv⟩ := SortedMap.mem_keys.mp (hks k List.mem_cons_self)
      obtain ⟨_, _, _, hrem⟩ := h.expireKey hv
      exact hrem
    have hks' : ∀ k' ∈ ks, k' ∈ (t.remove k.subId k.seq).byDeadline.keys := by
      intro k' hk'
      have hne : k' ≠ k := fun he => hnk (he ▸ hk')
      rw [SortedMap.mem_keys, ← hrem, SortedMap.get_erase_ne _ hne, ← SortedMap.mem_keys]
      exact hks k' (List.mem_cons_of_mem _ hk')
    obtain ⟨ls, hout, hkeys, hgot⟩ := ih (h.remove k.subId k.seq) hnd hks'
    have hstep : (t.expireKeys (k :: ks)).2 =
        ⟨k.subId, k.seq, l.attempts, l.generation⟩ ::
          ((t.remove k.subId k.seq).expireKeys ks).2 := by
      have hl' : ({ t with byDeadline := t.byDeadline.erase k } : LeaseTable).get k.subId k.seq =
          some l := hl
      simp only [expireKeys, hl', hrem]
    subst hkey
    refine ⟨l :: ls, ?_, ?_, fun l' hl' => ?_⟩
    · rw [hstep, hout]
      rfl
    · rw [List.map_cons, hkeys]
    · rcases List.mem_cons.mp hl' with rfl | hl'
      · exact hl
      · have hget := hgot l' hl'
        rw [get_remove] at hget
        split_ifs at hget
        exact hget

theorem keys_pairwise {κ ν : Type} [LinearOrder κ] (m : SortedMap κ ν) :
    m.keys.Pairwise (· < ·) := List.pairwise_map.mpr m.sorted

theorem deadline_le_of_lt {k k' : DeadlineKey} (h : k < k') : k.deadlineMs ≤ k'.deadlineMs := by
  have hlex : toLex (k.deadlineMs, toLex (k.subId, k.seq)) <
      toLex (k'.deadlineMs, toLex (k'.subId, k'.seq)) := h
  rcases Prod.Lex.toLex_lt_toLex.mp hlex with hlt | ⟨heq, _⟩
  · exact hlt.le
  · exact heq.le

theorem Coherent.expires (h : t.Coherent) (nowMs : Int) : t.Expires nowMs := by
  obtain ⟨_, hleft, _⟩ := expireUpTo_spec h nowMs
  refine ⟨?_, hleft⟩
  have hsorted := (keys_pairwise t.byDeadline).filter fun k => k.deadlineMs ≤ nowMs
  obtain ⟨ls, hout, hkeys, hgot⟩ := @expireKeys_reported t h
    (t.byDeadline.keys.filter fun k => k.deadlineMs ≤ nowMs) (t.byDeadline.keys_nodup.filter _)
    fun k hk => (List.mem_filter.mp hk).1
  rw [← hkeys] at hsorted
  refine ⟨ls, hout, ?_, ?_, fun l => ⟨fun hl => ⟨hgot l hl, ?_⟩, fun ⟨hl, hd⟩ => ?_⟩⟩
  · exact List.Nodup.of_map _ (hsorted.imp ne_of_lt)
  · exact (List.pairwise_map.mp hsorted).imp deadline_le_of_lt
  · have hmem : l.deadlineKey ∈ ls.map Lease.deadlineKey := List.mem_map_of_mem hl
    rw [hkeys] at hmem
    exact of_decide_eq_true (List.mem_filter.mp hmem).2
  · have hmem : l.deadlineKey ∈ ls.map Lease.deadlineKey := by
      rw [hkeys]
      exact List.mem_filter.mpr ⟨h.mem_deadlines.mpr ⟨l, hl, rfl⟩, decide_eq_true hd⟩
    obtain ⟨l', hl', hkey⟩ := List.mem_map.mp hmem
    have hget := hgot l' hl'
    obtain ⟨_, hs, hq⟩ := DeadlineKey.mk.inj hkey
    rw [hs, hq, hl, Option.some.injEq] at hget
    exact hget ▸ hl'

end LeaseTable

/-- The table after the calls. -/
def tableAfter (calls : List TableCall) : LeaseTable := calls.foldl LeaseTable.perform .empty

/-- The two indexes of a lease table never diverge. -/
theorem indexes_never_diverge (calls : List TableCall) :
    (∀ k, k ∈ (tableAfter calls).byDeadline.keys ↔
      ∃ e ∈ (tableAfter calls).byKey.entries, e.2.deadlineKey = k) ∧
    (∀ e ∈ (tableAfter calls).byKey.entries, e.1 = ⟨e.2.subId, e.2.seq⟩) ∧
    ∀ nowMs, (tableAfter calls).Expires nowMs := by
  have h : (tableAfter calls).Coherent := LeaseTable.coherent_calls LeaseTable.coherent_empty calls
  have hkeyed : ∀ e ∈ (tableAfter calls).byKey.entries, e.1 = ⟨e.2.subId, e.2.seq⟩ := by
    intro e he
    obtain ⟨hs, hq⟩ := h.keyed (SortedMap.mem_entries.mp he)
    rw [hs, hq]
  refine ⟨fun k => ⟨fun hk => ?_, ?_⟩, hkeyed, h.expires⟩
  · obtain ⟨l, hl, hkey⟩ := h.get_due hk
    exact ⟨(⟨k.subId, k.seq⟩, l), SortedMap.mem_entries.mpr hl, hkey⟩
  · rintro ⟨e, he, rfl⟩
    have hget := SortedMap.mem_entries.mp he
    rw [hkeyed e he] at hget
    exact h.mem_deadlines.mpr ⟨e.2, hget, rfl⟩

end OpenPubusb
