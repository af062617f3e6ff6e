import OpenPubusb.CatalogOps
import OpenPubusb.PublishOrder

/-! The point of the log at which a subscription was created, and the cursors
that a seek installs in place of its own. -/

namespace OpenPubusb

/-- A seek installs a cursor with the attach point of the one it replaces. -/
def SameAttach (kv : Kv) (op : Op) : Prop :=
  ∀ id c c₀, seekTarget kv op = some (id, c) → kv.cursors.get id = some c₀ →
    c.attachSeq = c₀.attachSeq

/-- Everything up to the attach point is done. -/
structure Anchored (kv : Kv) : Prop where
  cursor : ∀ {id c}, kv.cursors.get id = some c → c.attachSeq ≤ c.ackedFloor
  snap : ∀ {id r}, kv.snaps.get id = some r → r.cursor.attachSeq ≤ r.cursor.ackedFloor

/-- A cursor that was there has kept its attach point. -/
def Moored (kv kv' : Kv) : Prop :=
  ∀ id c', kv'.cursors.get id = some c' →
    (∃ c, kv.cursors.get id = some c ∧ c'.attachSeq = c.attachSeq) ∨ kv.counter < id

theorem moored_of_eq {kv kv' : Kv} (h : kv'.cursors = kv.cursors) : Moored kv kv' := by
  intro id c hc
  rw [h] at hc
  exact Or.inl ⟨c, hc, rfl⟩

theorem Moored.trans {kv kv' kv'' : Kv} (h : Moored kv kv') (h' : Moored kv' kv'')
    (hcount : kv.counter ≤ kv'.counter) : Moored kv kv'' := by
  intro id c'' hc''
  rcases h' id c'' hc'' with ⟨c', hc', he'⟩ | hid
  · rcases h id c' hc' with ⟨c, hc, he⟩ | hid
    · exact Or.inl ⟨c, hc, he'.trans he⟩
    · exact Or.inr hid
  · exact Or.inr (hcount.trans_lt hid)

section Changes

variable {op : Op} {kv kv' : Kv}

theorem seekTarget_anchored (ha : Anchored kv) {id : Nat} {c : CursorRecord}
    (h : seekTarget kv op = some (id, c)) : c.attachSeq ≤ c.ackedFloor := by
  obtain ⟨_, _, _, _, ⟨_, _, hsnap, _, rfl⟩ | ⟨_, _, _, rfl⟩⟩ := seekTarget_cases h
  · obtain ⟨_, _, hs⟩ := snapshotGet_eq_ok hsnap
    exact ha.snap hs
  · exact le_max_right _ _

theorem Change.moored (h : Change op kv kv') (hc : Consistent kv) (hs : SameAttach kv op) :
    Moored kv kv' := by
  cases h with
  | advance w _ hcur ha =>
    intro i c' hc'
    rw [SortedMap.get_insert] at hc'
    split_ifs at hc' with hi
    · cases hc'
      exact Or.inl ⟨_, hi ▸ hcur, ha.attachSeq⟩
    · exact Or.inl ⟨c', hc', rfl⟩
  | @seek _ _ id c dlv w hseek =>
    intro i c' hc'
    rw [SortedMap.get_insert] at hc'
    split_ifs at hc' with hi
    · cases hc'
      obtain ⟨c₀, hc₀⟩ := Option.isSome_iff_exists.mp (seekTarget_cursor hc hseek)
      exact Or.inl ⟨c₀, hi ▸ hc₀, hs id c c₀ hseek hc₀⟩
    · exact Or.inl ⟨c', hc', rfl⟩
  | createSubscription =>
    intro i c' hc'
    rw [SortedMap.get_insert] at hc'
    split_ifs at hc' with hi
    · exact Or.inr (by omega)
    · exact Or.inl ⟨c', hc', rfl⟩
  | deleteSubscription =>
    intro i c' hc'
    rw [SortedMap.get_erase] at hc'
    split_ifs at hc'
    exact Or.inl ⟨c', hc', rfl⟩
  | _ => exact moored_of_eq rfl

theorem Change.anchored (h : Change op kv kv') (ha : Anchored kv) : Anchored kv' := by
  cases h with
  | advance w _ hcur hadv =>
    refine ⟨fun {i c'} hc' => ?_, ha.snap⟩
    rw [SortedMap.get_insert] at hc'
    split_ifs at hc'
    · cases hc'
      rw [hadv.attachSeq]
      exact (ha.cursor hcur).trans hadv.floor
    · exact ha.cursor hc'
  | seek dlv w hseek =>
    refine ⟨fun {i c'} hc' => ?_, ha.snap⟩
    rw [SortedMap.get_insert] at hc'
    split_ifs at hc'
    · cases hc'
      exact seekTarget_anchored ha hseek
    · exact ha.cursor hc'
  | createSubscription =>
    refine ⟨fun {i c'} hc' => ?_, ha.snap⟩
    rw [SortedMap.get_insert] at hc'
    split_ifs at hc'
    · cases hc'
      exact le_rfl
    · exact ha.cursor hc'
  | deleteSubscription =>
    refine ⟨fun {i c'} hc' => ?_, ha.snap⟩
    rw [SortedMap.get_erase] at hc'
    split_ifs at hc'
    exact ha.cursor hc'
  | createSnapshot w _ hsub _ hcur _ =>
    refine ⟨ha.cursor, fun {i r'} hr' => ?_⟩
    rw [SortedMap.get_insert] at hr'
    split_ifs at hr'
    · cases hr'
      exact ha.cursor hcur
    · exact ha.snap hr'
  | updateSnapshot w hr _ _ _ hcur =>
    refine ⟨ha.cursor, fun {i r'} hr' => ?_⟩
    rw [SortedMap.get_insert] at hr'
    split_ifs at hr'
    · cases hr'
      rw [hcur]
      exact ha.snap hr
    · exact ha.snap hr'
  | deleteSnapshot =>
    refine ⟨ha.cursor, fun {i r'} hr' => ?_⟩
    rw [SortedMap.get_erase] at hr'
    split_ifs at hr'
    exact ha.snap hr'
  | _ => exact ⟨ha.cursor, ha.snap⟩

theorem Path.anchored (h : Path op kv kv') (ha : Anchored kv) : Anchored kv' := by
  induction h with
  | refl => exact ha
  | tail _ hch ih => exact hch.anchored ih

theorem Path.moored (h : Path op kv kv') (hc : Consistent kv) (hs : op.isSingle = false) :
    Moored kv kv' := by
  induction h with
  | refl => exact moored_of_eq rfl
  | tail hp hch ih =>
    have hev := Path.evolves hp hc
    refine ih.trans (hch.moored hev.consistent fun _ _ _ hseek => ?_) hev.counter
    rw [seekTarget_eq_none hs] at hseek
    cases hseek

end Changes

section Runs

variable {s : Engine} {is : List Input}

theorem step_moored (hc : Consistent s.kv) (hh : s.kv.Healthy) (i : Input)
    (hs : SameAttach s.kv i.op) : Moored s.kv (step s i).2.kv := by
  cases hsingle : i.op.isSingle with
  | true =>
    have hone := step_once hc hh hsingle
    revert hone
    generalize (step s i).2.kv = kv'
    intro hone
    cases hone with
    | refl => exact moored_of_eq rfl
    | single hch => exact hch.moored hc hs
  | false => exact (step_path i hc hh).moored hc hsingle

theorem moored_final (hc : Consistent s.kv) (hh : s.kv.Healthy)
    (hrun : ∀ tr ∈ Run.trace step s is, SameAttach tr.pre.kv tr.input.op) :
    Moored s.kv (Run.final step s is).kv := by
  induction is generalizing s with
  | nil => exact moored_of_eq rfl
  | cons i is ih =>
    simp only [Run.trace, List.mem_cons, forall_eq_or_imp] at hrun
    have hev := (step_path i hc hh).evolves hc
    exact (step_moored hc hh i hrun.1).trans (ih hev.consistent (hev.healthy hh) hrun.2) hev.counter

theorem anchored_final (is : List Input) : Anchored (Run.final step start is).kv := by
  refine final_inv_of_path ?_ (fun _ _ _ _ hp ha => hp.anchored ha) is
  exact ⟨fun h => (by cases h), fun h => (by cases h)⟩

/-- Along the run, the cursor of a subscription keeps the attach point it was
created with, and nothing up to that point is delivered. -/
def NeverOlder (is : List Input) : Prop :=
  ∀ l tr l', history is = l ++ tr :: l' → ∀ subId c₀,
    tr.pre.kv.cursors.get subId = none → tr.post.kv.cursors.get subId = some c₀ →
    ∀ tr' ∈ l', (∀ c, tr'.post.kv.cursors.get subId = some c → c.attachSeq = c₀.attachSeq) ∧
      ∀ q d, Delivers tr' subId q d → c₀.attachSeq < q

theorem never_older (is : List Input) (h : ∀ tr ∈ history is, SameAttach tr.pre.kv tr.input.op) :
    NeverOlder is := by
  intro l tr l' hsplit subId c₀ _ hpost tr' htr'
  obtain ⟨is₀, is₁, hstart, hpre', hpost', hmem⟩ := Run.between_of_mem hsplit htr'
  obtain ⟨hc, hh⟩ := consistent_final is₀
  rw [← hstart] at hc hh
  have hknown : subId ≤ tr.post.kv.counter := by
    refine hc.sub_known ?_
    rw [← hc.cursors, hpost]
    rfl
  have hkept : ∀ is', (∀ x ∈ Run.trace step tr.post is', x ∈ history is) → ∀ c,
      (Run.final step tr.post is').kv.cursors.get subId = some c → c.attachSeq = c₀.attachSeq := by
    intro is' hsub c hcur
    have hmoored := moored_final hc hh fun x hx => h x (hsub x hx)
    rcases hmoored subId c hcur with ⟨c₁, hc₁, he⟩ | hid
    · rw [hpost] at hc₁
      cases hc₁
      exact he
    · omega
  refine ⟨fun c hcur => ?_, fun q d hd => ?_⟩
  · rw [hpost'] at hcur
    exact hkept _ hmem c hcur
  · have htr'_mem : tr' ∈ history is := by
      rw [hsplit]
      exact List.mem_append_right _ (List.mem_cons_of_mem _ htr')
    obtain ⟨c, r, hcur, _, hnot, _⟩ := Kv.pending_iff.mp (hd.pending htr'_mem)
    rw [hpre'] at hcur
    have hbefore : ∀ x ∈ Run.trace step tr.post is₁, x ∈ history is := by
      intro x hx
      refine hmem x ?_
      rw [Run.trace_append]
      exact List.mem_append_left _ hx
    have hattach := hkept is₁ hbefore c hcur
    have hanchored : Anchored (Run.final step tr.post is₁).kv := by
      rw [hstart, ← Run.final_append]
      exact anchored_final _
    have hle := hanchored.cursor hcur
    have hopen : ¬ q ≤ c.ackedFloor := fun hq => by
      rw [CursorRecord.isDone_iff.mpr (Or.inl hq)] at hnot
      cases hnot
    omega

end Runs

def sameAttachCheck (kv : Kv) (op : Op) : Bool :=
  (seekTarget kv op).all fun target =>
    (kv.cursors.get target.1).all fun c => target.2.attachSeq = c.attachSeq

theorem SameAttach.of_check {kv : Kv} {op : Op} (h : sameAttachCheck kv op = true) :
    SameAttach kv op := by
  intro id c c₀ hseek hc₀
  simp only [sameAttachCheck, hseek, Option.all_some, hc₀] at h
  exact of_decide_eq_true h

def createC : Input :=
  ⟨0, .createSubscription "projects/p/subscriptions/subC" "projects/p/topics/top1" {}⟩

def snapshotOf (subscription : String) : Input :=
  ⟨0, .createSnapshot "projects/p/snapshots/snap1" subscription ∅⟩

def seekC : Input :=
  ⟨0, .seekToSnapshot "projects/p/subscriptions/subC" "projects/p/snapshots/snap1"⟩

def pullC : Input := ⟨0, .pull "projects/p/subscriptions/subC" 10⟩

/-- A subscription goes back to its own snapshot, and its message is delivered again. -/
theorem never_older_own_snapshot :
    let is := setup {} ++ createC ::
      ([publishOne, snapshotOf "projects/p/subscriptions/subC", pullC, seekC] ++ [pullC])
    (∃ d, Delivers (secondOf (setup {}) [publishOne, snapshotOf "projects/p/subscriptions/subC",
      pullC, seekC] createC pullC) 4 2 d) ∧ NeverOlder is := by
  intro is
  have hfacts : (history is).all (fun tr => sameAttachCheck tr.pre.kv tr.input.op) = true ∧
      (deliveryOf (secondOf (setup {}) [publishOne, snapshotOf "projects/p/subscriptions/subC",
        pullC, seekC] createC pullC) 4 2).isSome = true := by
    decide +kernel
  obtain ⟨d, hd⟩ := Option.isSome_iff_exists.mp hfacts.2
  exact ⟨⟨d, delivers_of_deliveryOf hd⟩,
    never_older is fun tr htr => .of_check (List.all_eq_true.mp hfacts.1 tr htr)⟩

/-- The snapshot of an older subscription brings back a message published before
the subscription was created. -/
theorem older_snapshot_delivers_older_message :
    ¬ NeverOlder (setup {} ++ createC ::
      ([snapshotOf "projects/p/subscriptions/subA", seekC] ++ [pullC])) := by
  intro h
  have hfacts : (firstOf (setup {}) createC).pre.kv.cursors.get 4 = none ∧
      (firstOf (setup {}) createC).post.kv.cursors.get 4 = some (.fresh 1 1) ∧
      (deliveryOf (secondOf (setup {}) [snapshotOf "projects/p/subscriptions/subA", seekC] createC
        pullC) 4 1).isSome = true := by
    decide +kernel
  obtain ⟨hpre, hpost, hdel⟩ := hfacts
  obtain ⟨d, hd⟩ := Option.isSome_iff_exists.mp hdel
  have hsplit := history_split (setup {}) [snapshotOf "projects/p/subscriptions/subA", seekC]
    createC pullC
  have hlt := (h _ _ _ hsplit 4 _ hpre hpost _ (List.mem_append_right _ List.mem_cons_self)).2 1 d
    (delivers_of_deliveryOf hd)
  exact absurd hlt (lt_irrefl 1)

end OpenPubusb
