import Mathlib.Algebra.Order.BigOperators.Group.List
import OpenPubusb.Grants

/-! Flow control of a stream: what it holds stays within its two limits as long as
the client resolves only what it holds and no batch overruns the byte limit. -/

namespace OpenPubusb

/-- The sizes of the leases the stream was granted that were neither acked nor nacked
since. -/
def heldSizes (trs : List Transition) (s : Engine) (sid : Nat) : List Nat :=
  s.leases.byKey.keys.filterMap fun k =>
    (grantIn trs k.id k.seq).bind fun g => if g.streamId = sid then some g.bytes else none

structure FlowControlled (trs : List Transition) (s : Engine) (sid : Nat) (info : StreamInfo) :
    Prop where
  messages : 0 < info.maxOutstandingMessages →
    ((heldSizes trs s sid).length : Int) ≤ info.maxOutstandingMessages
  bytes : 0 < info.maxOutstandingBytes → ∃ n ∈ 0 :: heldSizes trs s sid,
    ((heldSizes trs s sid).sum : Int) ≤ info.maxOutstandingBytes + n

/-- The sizes exceed the limit by one of them at most. -/
def Within (limit : Int) (m : SortedMap Nat Nat) : Prop :=
  (m.total : Int) ≤ limit ∨ ∃ q n, m.get q = some n ∧ (m.total : Int) ≤ limit + n

/-- The sizes of the messages that the scan is to lease. -/
def plannedSizes (a : LeaseArgs) (s : Engine) (c : CursorRecord) : List Nat :=
  ((planned a s c).filter fun v => v.verdict.leases).map fun v => v.message.payload.length

/-- The limits of the stream are not changed. -/
def FixedLimits (sid : Nat) (tr : Transition) : Prop :=
  ∀ st st', tr.pre.streams.sessions.get sid = some st →
    tr.post.streams.sessions.get sid = some st' →
    st'.info.maxOutstandingMessages = st.info.maxOutstandingMessages ∧
      st'.info.maxOutstandingBytes = st.info.maxOutstandingBytes

/-- What the stream's own requests are to be like, after the transitions `trs`. -/
structure Restrained (sid : Nat) (trs : List Transition) (s : Engine) (i : Input) : Prop where
  /-- An id sent on the stream for a message that it holds is the id of that lease. -/
  named : ∀ ackIds st, resolveCall i.op = some (sid, ackIds) →
    s.streams.sessions.get sid = some st → ∀ ackId ∈ ackIds, ∀ j q n,
      decodeAckId ackId = some (j, q, n) →
      (grantIn trs st.info.subId q).map Grant.streamId = some sid →
      s.leases.Names ackId st.info.subId q
  /-- No lease call of the stream reaches a message that fails it. -/
  taken : ∀ a c, i.op = .leaseForStream sid → scanArgs s i = some a →
    s.kv.cursors.get a.subId = some c → NoneUndeliverable a s c
  /-- What a lease call is to lease, beside what the stream tracks, overruns the byte limit
  by no more than one of its messages. -/
  fits : ∀ st a c, i.op = .leaseForStream sid → s.streams.sessions.get sid = some st →
    0 < st.info.maxOutstandingBytes → scanArgs s i = some a →
    s.kv.cursors.get a.subId = some c → ∃ n ∈ 0 :: plannedSizes a s c,
      (st.outstanding.total + (plannedSizes a s c).sum : Int) ≤ st.info.maxOutstandingBytes + n

section Sizes

variable {m : SortedMap Nat Nat} {limit : Int}

theorem Within.erase (h : Within limit m) (q : Nat) : Within limit (m.erase q) := by
  have herase := m.total_erase q
  rcases h with h | ⟨k, n, hk, h⟩
  · left
    omega
  · by_cases hq : k = q
    · subst hq
      left
      rw [hk, Option.getD_some] at herase
      omega
    · right
      refine ⟨k, n, ?_, by omega⟩
      rw [SortedMap.get_erase_ne _ hq]
      exact hk

theorem within_resolvedAll {st : SessionState} (h : Within limit st.outstanding)
    (ackIds : List String) : Within limit (resolvedAll st ackIds).outstanding := by
  refine resolvedAll_induction (P := fun x => Within limit x.outstanding) h (fun x q hx => ?_) ackIds
  unfold StreamRegistry.resolved
  cases x.outstanding.get q with
  | none => exact hx
  | some n => exact hx.erase q

theorem size_resolvedAll_le (st : SessionState) (ackIds : List String) :
    (resolvedAll st ackIds).outstanding.size ≤ st.outstanding.size := by
  refine resolvedAll_induction (P := fun x => x.outstanding.size ≤ st.outstanding.size) le_rfl
    (fun x q hx => ?_) ackIds
  unfold StreamRegistry.resolved
  cases x.outstanding.get q with
  | none => exact hx
  | some n => exact (x.outstanding.size_erase_le q).trans hx

theorem size_leasedAll_le (st : SessionState) (ds : List Delivered) :
    (leasedAll st ds).outstanding.size ≤ st.outstanding.size + ds.length := by
  induction ds generalizing st with
  | nil => exact le_rfl
  | cons d ds ih =>
    have hrest := ih (StreamRegistry.leased st d.seq d.message.payload.length)
    have hone := st.outstanding.size_insert_le d.seq d.message.payload.length
    have heq : (StreamRegistry.leased st d.seq d.message.payload.length).outstanding =
        st.outstanding.insert d.seq d.message.payload.length := rfl
    rw [heq] at hrest
    rw [List.length_cons]
    change (leasedAll (StreamRegistry.leased st d.seq d.message.payload.length)
      ds).outstanding.size ≤ _
    omega

theorem total_leasedAll_le (st : SessionState) (ds : List Delivered) :
    (leasedAll st ds).outstanding.total ≤
      st.outstanding.total + (ds.map fun d => d.message.payload.length).sum := by
  induction ds generalizing st with
  | nil => exact le_rfl
  | cons d ds ih =>
    have hrest := ih (StreamRegistry.leased st d.seq d.message.payload.length)
    have hone := st.outstanding.total_insert d.seq d.message.payload.length
    have heq : (StreamRegistry.leased st d.seq d.message.payload.length).outstanding =
        st.outstanding.insert d.seq d.message.payload.length := rfl
    rw [heq] at hrest
    rw [List.map_cons, List.sum_cons]
    change (leasedAll (StreamRegistry.leased st d.seq d.message.payload.length)
      ds).outstanding.total ≤ _
    omega

theorem within_leasedAll {st : SessionState} {ds : List Delivered}
    (hnodup : (ds.map Delivered.seq).Nodup)
    (h : ∃ n ∈ (0 :: ds.map fun d => d.message.payload.length : List Nat),
      (st.outstanding.total + (ds.map fun d => d.message.payload.length).sum : Int) ≤ limit + n) :
    Within limit (leasedAll st ds).outstanding := by
  obtain ⟨n, hn, hsum⟩ := h
  have htotal := total_leasedAll_le st ds
  rcases List.mem_cons.mp hn with rfl | hn
  · left
    omega
  · right
    obtain ⟨d, hd, rfl⟩ := List.mem_map.mp hn
    exact ⟨d.seq, d.message.payload.length, get_leasedAll hnodup hd, by omega⟩

theorem sizes_delivery (a : LeaseArgs) (vs : List Judged) :
    (vs.filterMap (Judged.delivery a)).map (fun d => d.message.payload.length) =
      (vs.filter fun v => v.verdict.leases).map fun v => v.message.payload.length := by
  induction vs with
  | nil => rfl
  | cons v vs ih =>
    rw [List.filterMap_cons, List.filter_cons]
    cases hv : v.verdict with
    | lease n =>
      have hd : v.delivery a = some (deliver a v.seq v.message (satSuccU32 n)) := by
        rw [Judged.delivery, hv]
      simp only [hd, List.map_cons, ih]
      rfl
    | _ =>
      have hd : v.delivery a = none := by rw [Judged.delivery, hv]
      simp only [hd, ih]
      rfl

theorem subperm_values {ks : List RowKey} {f : RowKey → Option Nat} {subId : Nat}
    (hnodup : ks.Nodup)
    (hf : ∀ k ∈ ks, ∀ n, f k = some n → k.id = subId ∧ m.get k.seq = some n) :
    ∃ l : List Nat, l.Perm (ks.filterMap f) ∧ l.Sublist (m.entries.map Prod.snd) := by
  have hpairs : (ks.filterMap fun k => (f k).map fun n => (k.seq, n)).Nodup := by
    refine List.pairwise_filterMap.mpr (hnodup.imp_of_mem fun {k k'} hk hk' hne p hp p' hp' he => ?_)
    obtain ⟨n, hn, rfl⟩ := Option.map_eq_some_iff.mp hp
    obtain ⟨n', hn', rfl⟩ := Option.map_eq_some_iff.mp hp'
    have hid : k.id = k'.id := (hf k hk n hn).1.trans (hf k' hk' n' hn').1.symm
    have hseq : k.seq = k'.seq := congrArg Prod.fst he
    apply hne
    cases k
    cases k'
    simp only [RowKey.mk.injEq]
    exact ⟨hid, hseq⟩
  have hsub : (ks.filterMap fun k => (f k).map fun n => (k.seq, n)) ⊆ m.entries := by
    intro p hp
    obtain ⟨k, hk, hkp⟩ := List.mem_filterMap.mp hp
    obtain ⟨n, hn, rfl⟩ := Option.map_eq_some_iff.mp hkp
    exact SortedMap.mem_entries.mpr (hf k hk n hn).2
  obtain ⟨l, hperm, hl⟩ := List.subperm_of_subset hpairs hsub
  refine ⟨l.map Prod.snd, ?_, hl.map _⟩
  have hmap := hperm.map Prod.snd
  rw [List.map_filterMap] at hmap
  refine hmap.trans (List.Perm.of_eq ?_)
  congr 1
  funext k
  cases f k <;> rfl

theorem sum_values_le {ks : List RowKey} {f : RowKey → Option Nat} {subId : Nat}
    (hnodup : ks.Nodup)
    (hf : ∀ k ∈ ks, ∀ n, f k = some n → k.id = subId ∧ m.get k.seq = some n) :
    (ks.filterMap f).length ≤ m.size ∧ (ks.filterMap f).sum ≤ m.total := by
  obtain ⟨l, hperm, hl⟩ := subperm_values hnodup hf
  rw [← hperm.length_eq, ← hperm.sum_nat]
  refine ⟨?_, hl.sum_le_sum fun _ _ => Nat.zero_le _⟩
  have hlen := hl.length_le
  rwa [List.length_map] at hlen

theorem Within.sum_values_le {ks : List RowKey} {f : RowKey → Option Nat} {subId : Nat}
    (h : Within limit m) (hnodup : ks.Nodup)
    (hf : ∀ k ∈ ks, ∀ n, f k = some n → k.id = subId ∧ m.get k.seq = some n) :
    ∃ n ∈ 0 :: ks.filterMap f, ((ks.filterMap f).sum : Int) ≤ limit + n := by
  have hsum := (OpenPubusb.sum_values_le hnodup hf).2
  rcases h with h | ⟨q, n, hq, h⟩
  · exact ⟨0, List.mem_cons_self, by omega⟩
  · by_cases hmem : ∃ k ∈ ks, ∃ n', f k = some n' ∧ k.seq = q
    · obtain ⟨k, hk, n', hn', hseq⟩ := hmem
      have hget := (hf k hk n' hn').2
      rw [hseq, hq, Option.some.injEq] at hget
      subst hget
      exact ⟨n, List.mem_cons_of_mem _ (List.mem_filterMap.mpr ⟨k, hk, hn'⟩), by omega⟩
    · have hf' : ∀ k ∈ ks, ∀ n, f k = some n → k.id = subId ∧ (m.erase q).get k.seq = some n := by
        intro k hk n' hn'
        have hne : k.seq ≠ q := fun he => hmem ⟨k, hk, n', hn', he⟩
        rw [SortedMap.get_erase_ne _ hne]
        exact hf k hk n' hn'
      have hless := (OpenPubusb.sum_values_le hnodup hf').2
      have herase := m.total_erase q
      rw [hq, Option.getD_some] at herase
      exact ⟨0, List.mem_cons_self, by omega⟩

end Sizes

/-- The books of the stream: it tracks whatever it holds, and stays within its
limits. -/
structure Booked (trs : List Transition) (sid : Nat) (st : SessionState) : Prop where
  grants : ∀ i q g, grantIn trs i q = some g → g.streamId = sid →
    i = st.info.subId ∧ st.outstanding.get q = some g.bytes
  messages : 0 < st.info.maxOutstandingMessages →
    (st.outstanding.size : Int) ≤ st.info.maxOutstandingMessages
  bytes : 0 < st.info.maxOutstandingBytes → Within st.info.maxOutstandingBytes st.outstanding

theorem Booked.flowControlled {trs : List Transition} {sid : Nat} {st : SessionState}
    (h : Booked trs sid st) (s : Engine) : FlowControlled trs s sid st.info := by
  have hf : ∀ k ∈ s.leases.byKey.keys, ∀ n, ((grantIn trs k.id k.seq).bind fun g =>
      if g.streamId = sid then some g.bytes else none) = some n →
      k.id = st.info.subId ∧ st.outstanding.get k.seq = some n := by
    intro k _ n hn
    obtain ⟨g, hg, hn⟩ := Option.bind_eq_some_iff.mp hn
    split_ifs at hn with hs
    rw [← Option.some.inj hn]
    exact h.grants k.id k.seq g hg hs
  refine ⟨fun hpos => ?_, fun hpos => ?_⟩
  · have hlen := (sum_values_le s.leases.byKey.keys_nodup hf).1
    have hsize := h.messages hpos
    unfold heldSizes
    omega
  · exact (h.bytes hpos).sum_values_le s.leases.byKey.keys_nodup hf

section Step

variable {trs : List Transition} {s : Engine} {i : Input} {sid : Nat}

theorem messages_leasedAll {st : SessionState} {ds : List Delivered}
    (h : 0 < st.info.maxOutstandingMessages →
      (st.outstanding.size : Int) ≤ st.info.maxOutstandingMessages)
    (hlen : ds = [] ∨ (ds.length : Int) ≤ (StreamRegistry.sessionBudget st).1)
    (hpos : 0 < st.info.maxOutstandingMessages) :
    ((leasedAll st ds).outstanding.size : Int) ≤ st.info.maxOutstandingMessages := by
  have hold := h hpos
  have hsize := size_leasedAll_le st ds
  rcases hlen with rfl | hlen
  · exact hold
  · simp only [StreamRegistry.sessionBudget, if_neg (not_le.mpr hpos)] at hlen
    rw [max_eq_left (by omega)] at hlen
    omega

/-- The stream's lease call hands out nothing, or what its scan is to lease. -/
theorem step_planned {st : SessionState} {ds : List Delivered}
    (hop : i.op = .leaseForStream sid) (hst : s.streams.sessions.get sid = some st)
    (hr : (step s i).1 = .delivered st.info.subId ds) :
    ds = [] ∨ ∃ a c, scanArgs s i = some a ∧ s.kv.cursors.get a.subId = some c ∧
      ds.map (fun d => d.message.payload.length) = plannedSizes a s c := by
  have hcall : leaseCall s i.op ≠ none := by
    simp only [hop, leaseCall, StreamRegistry.info, hst, Option.map_some]
    exact Option.some_ne_none _
  rcases step_scan hcall with ⟨_, hnil⟩ | ⟨a, c, hargs, hc, hmade⟩
  · exact Or.inl (hnil _ _ hr)
  · right
    refine ⟨a, c, hargs, hc, ?_⟩
    rcases hmade with ⟨out, u, ⟨_, sc, hscan, rfl, _⟩, hreply, _⟩ | ⟨_, _, _, hreply, _⟩
    · rw [hr, Reply.delivered.injEq] at hreply
      rw [hreply.2, hscan.out, List.nil_append, sizes_delivery]
      rfl
    · rw [hr] at hreply
      cases hreply

theorem tracked_step (hwf : s.WellFormed)
    (hknown : ∀ j q g, grantIn trs j q = some g → g.streamId ≤ s.streams.nextId)
    (hbooked : ∀ st, s.streams.sessions.get sid = some st → Booked trs sid st)
    (hc : Restrained sid trs s i) {st' : SessionState}
    (hst' : (step s i).2.streams.sessions.get sid = some st') {j q : Nat} {g : Grant}
    (hg : grantAfter j q (grantIn trs j q) (Run.transition step s i) = some g)
    (hsid : g.streamId = sid) :
    j = st'.info.subId ∧ st'.outstanding.get q = some g.bytes := by
  obtain ⟨hsome, hgrant⟩ := grantAfter_eq_some hg
  have hstep := sessionStep hwf hst'
  rcases hgrant with ⟨hleases, hof⟩ | ⟨hnot, hends, hold⟩
  · -- A grant made by this step is in the reply, and so in the books.
    obtain ⟨hop, st, hst, hbytes⟩ := grantOf_eq_some hof
    rw [hsid] at hop hst
    have hop : i.op = .leaseForStream sid := hop
    have hst : s.streams.sessions.get sid = some st := hst
    have hj : j = st.info.subId := by
      have hcall := hleases.1
      simp only [Run.transition, hop, leaseCall, StreamRegistry.info, hst, Option.map_some,
        Option.some.injEq] at hcall
      exact hcall.symm
    have href : ¬ Refused s i j := by
      rintro ⟨a, c, hargs, rfl, hcur, hne⟩
      exact hne (hc.taken a c hop hargs hcur)
    obtain ⟨ds, d, hr, hd, hseq⟩ := delivered_of_leases hwf href hleases hsome
    have hb := step_batch hwf hop hst hr
    cases hstep with
    | opened hnew =>
      have hle := (hwf.session hst).1
      omega
    | kept _ _ _ _ _ _ hidle =>
      obtain ⟨e, he⟩ := hidle hop
      rw [hr] at he
      cases he
    | leased st₁ hst₁ ds₁ _ hr₁ hst₁' =>
      rw [hst, Option.some.injEq] at hst₁
      subst hst₁
      rw [hr] at hr₁
      cases hr₁
      subst hst₁'
      refine ⟨by rw [leasedAll_info], ?_⟩
      have hrow : s.kv.msg.get ⟨st.info.topicId, q⟩ = some d.message := by
        rw [← hseq]
        exact mem_scanPrefix.mp (hb.row d hd)
      have hstored : g.bytes = d.message.payload.length := by
        rw [hbytes, storedBytes]
        simp only [Run.transition, hrow, Option.map_some, Option.getD_some]
      rw [← hseq, get_leasedAll hb.nodup hd, hstored]
    | resolved _ _ _ hcall =>
      rw [hop] at hcall
      cases hcall
  · -- An earlier grant stays in the books, for only an id that names it takes it out.
    cases hstep with
    | opened hnew =>
      have hle := hknown j q g hold
      omega
    | kept st hst hsub _ hout _ _ =>
      obtain ⟨hj, hget⟩ := (hbooked st hst).grants j q g hold hsid
      rw [hsub, hout]
      exact ⟨hj, hget⟩
    | leased st hst ds hop hr hst₁ =>
      obtain ⟨hj, hget⟩ := (hbooked st hst).grants j q g hold hsid
      subst hst₁
      refine ⟨by rw [leasedAll_info]; exact hj, ?_⟩
      rw [get_leasedAll_of_not_mem, hget]
      intro hmem
      obtain ⟨d, hd, hseq⟩ := List.mem_map.mp hmem
      apply hnot
      rw [hj]
      exact leases_of_delivered hop hst hr hd hseq
    | resolved st hst ackIds hcall hok hst₁ =>
      obtain ⟨hj, hget⟩ := (hbooked st hst).grants j q g hold hsid
      subst hst₁
      refine ⟨by rw [resolvedAll_info]; exact hj, ?_⟩
      rw [get_resolvedAll_of_not_decodes, hget]
      rintro ⟨ackId, hmem, j', n, hdec⟩
      have hheld : (grantIn trs st.info.subId q).map Grant.streamId = some sid := by
        rw [← hj, hold, Option.map_some, hsid]
      have hnames := hc.named ackIds st hcall hst ackId hmem j' q n hdec hheld
      rw [← hj] at hnames
      exact not_hit_of_grant hwf hcall hok hsome hends ⟨ackId, hmem, hnames⟩

theorem booked_step (hwf : s.WellFormed)
    (hknown : ∀ j q g, grantIn trs j q = some g → g.streamId ≤ s.streams.nextId)
    (hbooked : ∀ st, s.streams.sessions.get sid = some st → Booked trs sid st)
    (hc : Restrained sid trs s i) (hfixed : FixedLimits sid (Run.transition step s i))
    {st' : SessionState} (hst' : (step s i).2.streams.sessions.get sid = some st') :
    Booked (trs ++ [Run.transition step s i]) sid st' := by
  have hgrants : ∀ j q g, grantIn (trs ++ [Run.transition step s i]) j q = some g →
      g.streamId = sid → j = st'.info.subId ∧ st'.outstanding.get q = some g.bytes := by
    intro j q g hg hsid
    rw [grantIn_append] at hg
    exact tracked_step hwf hknown hbooked hc hst' hg hsid
  cases sessionStep hwf hst' with
  | opened _ hout =>
    refine ⟨hgrants, fun hpos => ?_, fun hpos => Or.inl ?_⟩
    · rw [hout]
      exact le_of_lt hpos
    · rw [hout]
      exact le_of_lt hpos
  | kept st hst _ _ hout _ _ =>
    obtain ⟨hmsgs, hbytes⟩ := hfixed st st' hst hst'
    have hold := hbooked st hst
    refine ⟨hgrants, ?_, ?_⟩
    · rw [hmsgs, hout]
      exact hold.messages
    · rw [hbytes, hout]
      exact hold.bytes
  | leased st hst ds hop hr hst₁ =>
    have hold := hbooked st hst
    have hb := step_batch hwf hop hst hr
    have hlease := step_streamLease hwf hop hst hr
    have hlen : ds = [] ∨ (ds.length : Int) ≤ (StreamRegistry.sessionBudget st).1 := by
      rcases hlease with hnil | ⟨_, a, u, _, _, _, hmax, hdone⟩
      · exact Or.inl hnil
      · have hbound := hdone.bound
        exact Or.inr (by omega)
    subst hst₁
    refine ⟨hgrants, ?_, ?_⟩
    · rw [leasedAll_info]
      exact messages_leasedAll hold.messages hlen
    · rw [leasedAll_info]
      intro hpos
      rcases step_planned hop hst hr with rfl | ⟨a, c, hargs, hcur, hsizes⟩
      · exact hold.bytes hpos
      · apply within_leasedAll hb.nodup
        rw [hsizes]
        exact hc.fits st a c hop hst hpos hargs hcur
  | resolved st hst ackIds _ _ hst₁ =>
    have hold := hbooked st hst
    subst hst₁
    refine ⟨hgrants, ?_, ?_⟩
    · rw [resolvedAll_info]
      intro hpos
      have hsize := size_resolvedAll_le st ackIds
      have hlim := hold.messages hpos
      omega
    · rw [resolvedAll_info]
      exact fun hpos => within_resolvedAll (hold.bytes hpos) ackIds

end Step

/-- A stream whose limits stay fixed holds no more than they allow, as long as its
requests are restrained. -/
theorem flow_control_of_restrained (sid : Nat) (is : List Input)
    (hfixed : ∀ tr ∈ history is, FixedLimits sid tr)
    (hc : ∀ trs tr rest, history is = trs ++ tr :: rest → Restrained sid trs tr.pre tr.input)
    {st : SessionState}
    (hst : (Run.final step start is).streams.sessions.get sid = some st) :
    FlowControlled (history is) (Run.final step start is) sid st.info := by
  have hinv := @Run.history_inv _ _ _ step
    (fun trs tr => Restrained sid trs tr.pre tr.input ∧ FixedLimits sid tr)
    (fun trs s => s.WellFormed ∧
      (∀ j q g, grantIn trs j q = some g → g.streamId ≤ s.streams.nextId) ∧
      ∀ st, s.streams.sessions.get sid = some st → Booked trs sid st)
    (fun trs s i ⟨hwf, hknown, hbooked⟩ hc => by
      refine ⟨wellFormed_step hwf i, fun j q g hg => ?_, fun st' hst' => ?_⟩
      · rw [grantIn_append] at hg
        exact grant_known_step hwf (fun y hy => hknown j q y hy) hg
      · exact booked_step hwf hknown hbooked hc.1 hc.2 hst')
    start is ⟨wellFormed_start, fun _ _ _ h => (by cases h), fun _ h => (by cases h)⟩
    (fun trs tr rest h => by
      have hmem : tr ∈ history is := by
        rw [history, h]
        exact List.mem_append_right _ List.mem_cons_self
      exact ⟨hc trs tr rest h, hfixed tr hmem⟩)
  exact (hinv.2.2 st hst).flowControlled _

instance (sid : Nat) (tr : Transition) : Decidable (FixedLimits sid tr) :=
  decidable_of_iff (∀ st ∈ tr.pre.streams.sessions.get sid,
    ∀ st' ∈ tr.post.streams.sessions.get sid,
      st'.info.maxOutstandingMessages = st.info.maxOutstandingMessages ∧
        st'.info.maxOutstandingBytes = st.info.maxOutstandingBytes)
    ⟨fun h st st' hst hst' => h st hst st' hst', fun h st hst st' hst' => h st st' hst hst'⟩

/-- Another message, and a stream on `subA` with the given limits. -/
def limitedStream (messages bytes : Int) : List Input :=
  setup {} ++ [⟨0, .publish "projects/p/topics/top1" [⟨[4, 5, 6], ∅, ""⟩]⟩,
    ⟨0, .openStream "projects/p/subscriptions/subA" 10 messages bytes⟩]

def leaseLimited (nowMs : Int) : Input := ⟨nowMs, .leaseForStream 1⟩

/-- What the lease call is to lease. -/
def plannedAt (s : Engine) (i : Input) : List Nat :=
  ((scanArgs s i).map fun a =>
    ((s.kv.cursors.get a.subId).map fun c => plannedSizes a s c).getD []).getD []

theorem plannedAt_eq {s : Engine} {i : Input} {a : LeaseArgs} {c : CursorRecord}
    (hargs : scanArgs s i = some a) (hc : s.kv.cursors.get a.subId = some c) :
    plannedAt s i = plannedSizes a s c := by
  simp only [plannedAt, hargs, hc, Option.map_some, Option.getD_some]

theorem restrained_of_idle {sid : Nat} {trs : List Transition} {s : Engine} {i : Input}
    (hcall : resolveCall i.op = none) (hop : i.op ≠ .leaseForStream sid) :
    Restrained sid trs s i where
  named ackIds st h := by
    rw [hcall] at h
    cases h
  taken a c h := absurd h hop
  fits st a c h := absurd h hop

theorem flow_control_one_message :
    ∃ st, (Run.final step start (limitedStream 1 2 ++ [leaseLimited 1000])).streams.sessions.get 1 =
        some st ∧
      FlowControlled (history (limitedStream 1 2 ++ [leaseLimited 1000]))
        (Run.final step start (limitedStream 1 2 ++ [leaseLimited 1000])) 1 st.info := by
  have hopen : ((Run.final step start (limitedStream 1 2 ++ [leaseLimited 1000])).streams.sessions.get
      1).isSome := by decide +kernel
  obtain ⟨st, hst⟩ := Option.isSome_iff_exists.mp hopen
  refine ⟨st, hst, flow_control_of_restrained 1 _ (by decide +kernel) ?_ hst⟩
  intro trs tr rest h
  have hmeets : meetsNoRefusal (Run.final step start (limitedStream 1 2)) (leaseLimited 1000) =
      true := by
    decide +kernel
  have hsizes : plannedAt (Run.final step start (limitedStream 1 2)) (leaseLimited 1000) = [3] := by
    decide +kernel
  have hfirst : ((Run.final step start (limitedStream 1 2)).streams.sessions.get 1).map (fun st =>
      (st.outstanding.total, st.info.maxOutstandingBytes)) = some (0, 2) := by decide +kernel
  rcases Run.trace_concat_eq_append h with ⟨_, rfl⟩ | ⟨rest', h'⟩
  · refine ⟨fun _ _ hcall => (by cases hcall), fun a c _ hargs hc =>
      noneUndeliverable_of_meets hmeets hargs hc, fun st a c _ hst _ hargs hc => ?_⟩
    have hplan := (plannedAt_eq hargs hc).symm.trans hsizes
    change (Run.final step start (limitedStream 1 2)).streams.sessions.get 1 = some st at hst
    rw [hst, Option.map_some, Option.some.injEq, Prod.mk.injEq] at hfirst
    rw [hplan, hfirst.1, hfirst.2]
    exact ⟨3, by simp, by decide⟩
  · have hmem : tr.input ∈ limitedStream 1 2 := by
      have htr : tr ∈ history (limitedStream 1 2) := by
        rw [history, h']
        exact List.mem_append_right _ List.mem_cons_self
      exact mem_inputs htr
    simp only [limitedStream, setup, List.mem_append, List.mem_cons, List.not_mem_nil,
      or_false] at hmem
    rcases hmem with (hi | hi | hi | hi) | hi | hi
    all_goals
      rw [hi]
      exact restrained_of_idle rfl fun h => by cases h

/-- Both messages are handed out although one overruns the limit, and an id of another
subscription releases a message that stays leased. -/
theorem flow_control_overrun :
    (∃ st, (Run.final step start (limitedStream 0 2 ++ [leaseLimited 1000])).streams.sessions.get 1 =
        some st ∧
      ¬ FlowControlled (history (limitedStream 0 2 ++ [leaseLimited 1000]))
        (Run.final step start (limitedStream 0 2 ++ [leaseLimited 1000])) 1 st.info) ∧
    ∃ st, (Run.final step start (limitedStream 1 0 ++ [leaseLimited 1000,
        ⟨1000, .streamAcknowledge 1 2 [encodeAckId 3 1 1]⟩, leaseLimited 1000])).streams.sessions.get
          1 = some st ∧
      ¬ FlowControlled (history (limitedStream 1 0 ++ [leaseLimited 1000,
          ⟨1000, .streamAcknowledge 1 2 [encodeAckId 3 1 1]⟩, leaseLimited 1000]))
        (Run.final step start (limitedStream 1 0 ++ [leaseLimited 1000,
          ⟨1000, .streamAcknowledge 1 2 [encodeAckId 3 1 1]⟩, leaseLimited 1000])) 1 st.info := by
  constructor
  · have hrun : ((Run.final step start (limitedStream 0 2 ++
        [leaseLimited 1000])).streams.sessions.get 1).map
          (fun st => st.info.maxOutstandingBytes) = some 2 := by decide +kernel
    have hheld : heldSizes (history (limitedStream 0 2 ++ [leaseLimited 1000]))
        (Run.final step start (limitedStream 0 2 ++ [leaseLimited 1000])) 1 = [3, 3] := by
      decide +kernel
    obtain ⟨st, hst, hlim⟩ := Option.map_eq_some_iff.mp hrun
    refine ⟨st, hst, fun h => ?_⟩
    obtain ⟨n, hn, hsum⟩ := h.bytes (by rw [hlim]; decide)
    rw [hheld] at hn hsum
    rw [hlim] at hsum
    simp only [List.mem_cons, List.not_mem_nil, or_false] at hn
    simp only [List.sum_cons, List.sum_nil] at hsum
    omega
  · have hrun : ((Run.final step start (limitedStream 1 0 ++ [leaseLimited 1000,
        ⟨1000, .streamAcknowledge 1 2 [encodeAckId 3 1 1]⟩,
        leaseLimited 1000])).streams.sessions.get 1).map
          (fun st => st.info.maxOutstandingMessages) = some 1 := by decide +kernel
    have hheld : (heldSizes (history (limitedStream 1 0 ++ [leaseLimited 1000,
          ⟨1000, .streamAcknowledge 1 2 [encodeAckId 3 1 1]⟩, leaseLimited 1000]))
        (Run.final step start (limitedStream 1 0 ++ [leaseLimited 1000,
          ⟨1000, .streamAcknowledge 1 2 [encodeAckId 3 1 1]⟩, leaseLimited 1000])) 1).length = 2 := by
      decide +kernel
    obtain ⟨st, hst, hlim⟩ := Option.map_eq_some_iff.mp hrun
    refine ⟨st, hst, fun h => ?_⟩
    have hlen := h.messages (by rw [hlim]; decide)
    rw [hheld, hlim] at hlen
    omega

end OpenPubusb
