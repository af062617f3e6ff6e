import OpenPubusb.RecordRace

/-! Two operations on one subscription record are serialisable exactly when
every write-back finds the record and the name row as the read left them. -/

namespace OpenPubusb

open Hoare

namespace RecordOp

/-- The record after the operation; a rejected patch leaves it as it was. -/
def effect (op : RecordOp) (r : SubscriptionRecord) : SubscriptionRecord :=
  match op.apply r with
  | .ok r' => r'
  | .error _ => r

theorem effect_of_ok {op : RecordOp} {r r' : SubscriptionRecord} (h : op.apply r = .ok r') :
    op.effect r = r' := by
  rw [effect, h]

theorem effect_of_error {op : RecordOp} {r : SubscriptionRecord} {e : Error}
    (h : op.apply r = .error e) : op.effect r = r := by
  rw [effect, h]

theorem apply_error {op : RecordOp} {r : SubscriptionRecord} {e : Error}
    (h : op.apply r = .error e) (r' : SubscriptionRecord) : op.apply r' = .error e := by
  cases op with
  | update patch =>
    simp only [RecordOp.apply, bind, Except.bind] at h ⊢
    cases hp : SubscriptionStore.checkPatch patch with
    | error e' => simpa only [hp] using h
    | ok _ => rw [hp] at h; cases h
  | _ => cases h

theorem effect_sane (op : RecordOp) (r : SubscriptionRecord) :
    (op.effect r).id = r.id ∧ (op.effect r).name = r.name := by
  cases ha : op.apply r with
  | ok r' =>
    rw [effect_of_ok ha]
    exact apply_sane ha
  | error e =>
    rw [effect_of_error ha]
    exact ⟨rfl, rfl⟩

/-- The fields the operation overwrites, as a patch with the two that no patch has. -/
def overlay (op : RecordOp) (r : SubscriptionRecord) : SubscriptionRecord :=
  let patch : SubscriptionUpdatePatch :=
    match op with
    | .update patch => patch
    | .detach => { detached := some true }
    | .setPushConfig pushConfig => { pushConfig := some pushConfig }
    | _ => {}
  let topic :=
    match op with
    | .setTopicToDeleted => some deletedTopic
    | _ => none
  let lastActivityTsMs :=
    match op with
    | .touch nowMs => some nowMs
    | _ => none
  { SubscriptionStore.patched r patch with
    topic := topic.getD r.topic
    lastActivityTsMs := lastActivityTsMs.getD r.lastActivityTsMs }

theorem effect_cases (op : RecordOp) :
    (∀ r, op.effect r = r) ∨ ∀ r, op.effect r = op.overlay r := by
  cases op with
  | update patch =>
    cases hp : SubscriptionStore.checkPatch patch with
    | error e =>
      refine Or.inl fun r => effect_of_error (e := e) ?_
      simp only [RecordOp.apply, hp]
      rfl
    | ok _ =>
      refine Or.inr fun r => effect_of_ok ?_
      simp only [RecordOp.apply, hp]
      rfl
  | delete => exact Or.inl fun r => rfl
  | _ => 
    refine Or.inr fun r => ?_
    simp [effect, RecordOp.apply, overlay, SubscriptionStore.patched]

theorem getD_absorb {α : Type} (p p' : Option α) (x : α) (h : p'.getD (p.getD x) = p.getD x) :
    p.getD (p'.getD x) = p.getD x := by
  cases p with
  | none => exact h
  | some v => rfl

theorem overlay_absorb (a b : RecordOp) (r : SubscriptionRecord)
    (h : b.overlay (a.overlay r) = a.overlay r) : a.overlay (b.overlay r) = a.overlay r := by
  simp only [overlay, SubscriptionStore.patched, SubscriptionRecord.mk.injEq, true_and] at h ⊢
  obtain ⟨h1, h2, h3, h4, h5, h6, h7, h8, h9, h10, h11, h12, h13, h14, h15⟩ := h
  refine ⟨getD_absorb _ _ _ h1, getD_absorb _ _ _ h2, getD_absorb _ _ _ h3, getD_absorb _ _ _ h4,
    getD_absorb _ _ _ h5, getD_absorb _ _ _ h6, getD_absorb _ _ _ h7, ?_, getD_absorb _ _ _ h9,
    getD_absorb _ _ _ h10, ?_, getD_absorb _ _ _ h12, getD_absorb _ _ _ h13, getD_absorb _ _ _ h14,
    getD_absorb _ _ _ h15⟩
  · split
    · rfl
    · simp only [*] at h8
      exact h8
  · revert h11
    generalize Option.isSome _ = x
    generalize Option.isSome _ = y
    generalize Option.isSome _ = z
    generalize Option.isSome _ = w
    cases r.retryPolicyExplicit <;> cases x <;> cases y <;> cases z <;> cases w <;> decide

/-- An operation that would change nothing after `a` is overwritten by `a`. -/
theorem effect_absorb (a b : RecordOp) (r : SubscriptionRecord)
    (h : b.effect (a.effect r) = a.effect r) : a.effect (b.effect r) = a.effect r := by
  rcases effect_cases a with ha | ha
  · simpa only [ha] using h
  · rcases effect_cases b with hb | hb
    · rw [hb]
    · simp only [ha, hb] at h ⊢
      exact overlay_absorb a b r h

end RecordOp

def Stage.settled : Stage → Bool
  | .written => true
  | .clear => true
  | _ => false

namespace Race

variable {ops : Bool → RecordOp} {r₀ : SubscriptionRecord} {s t : Race} {k : Bool}

/-- As `Racers.InPlace`, on the view. -/
def InPlace (ops : Bool → RecordOp) (s : Race) (k : Bool) : Prop :=
  (ops k).isDelete = false →
    (∀ r', s.stage k = .loaded r' → ∃ r, s.record = some r ∧ (ops k).apply r = .ok r') ∧
    (s.stage k = .written → s.named = true)

@[simp] theorem advance_stage_self (stage : Stage) : (s.advance k stage).stage k = stage :=
  Function.update_self ..

theorem advance_stage_ne {j : Bool} (h : j ≠ k) (stage : Stage) :
    (s.advance k stage).stage j = s.stage j :=
  Function.update_of_ne h ..

/-- A race of two updates, all of whose steps were in place. -/
inductive Updating (ops : Bool → RecordOp) (r₀ : SubscriptionRecord) (s : Race) : Prop where
  | fresh (hnamed : s.named = true) (hrecord : s.record = some r₀)
      (hset : ∀ k, (s.stage k).settled = false)
      (hload : ∀ k r, s.stage k = .loaded r → (ops k).apply r₀ = .ok r)
  | first (k : Bool) (hnamed : s.named = true) (hrecord : s.record = some ((ops k).effect r₀))
      (hset : (s.stage k).settled = true) (hset' : (s.stage !k).settled = false)
      (hload : ∀ r, s.stage (!k) = .loaded r →
        (ops !k).apply r₀ = .ok r ∨ (ops !k).apply ((ops k).effect r₀) = .ok r)
  | both (k : Bool) (hnamed : s.named = true)
      (hrecord : s.record = some ((ops !k).effect ((ops k).effect r₀)))
      (hset : ∀ k, (s.stage k).settled = true)

theorem eq_not_of_settled {j : Bool} (hj : (s.stage j).settled = true)
    (hk : (s.stage k).settled = false) : k = !j := by
  refine Bool.eq_not_of_ne fun h => ?_
  rw [h, hj] at hk
  cases hk

theorem settled_advance {stage : Stage} (hs : stage.settled = true)
    (h : (s.stage !k).settled = true) (j : Bool) :
    ((s.advance k stage).stage j).settled = true := by
  by_cases hj : j = k
  · rw [hj, advance_stage_self]
    exact hs
  · rw [advance_stage_ne hj, Bool.eq_not_of_ne hj]
    exact h

theorem effect_of_miss {r : SubscriptionRecord} (hnamed : s.named = true) (hr : s.record = some r)
    (h : s.named = false ∨ s.record = none ∨
      ∃ r e, s.record = some r ∧ (ops k).apply r = .error e) : (ops k).effect r = r := by
  rcases h with h | h | ⟨r', e, hr', he⟩
  · rw [hnamed] at h
    cases h
  · rw [hr] at h
    cases h
  · rw [hr] at hr'
    cases hr'
    exact RecordOp.effect_of_error he

theorem Updating.step (h : Updating ops r₀ s) (hops : ∀ k, (ops k).isDelete = false)
    (hin : s.InPlace ops k) (hst : Step ops s k t) : Updating ops r₀ t := by
  obtain ⟨hin₁, hin₂⟩ := hin (hops k)
  have hother : (!k) ≠ k := Bool.not_ne_self k
  cases h with
  | fresh hnamed hrecord hset hload =>
    cases hst with
    | silent _ ht => exact ht ▸ .fresh hnamed hrecord hset hload
    | load r r' hk hr ha ht =>
      have hr₀ : r₀ = r := Option.some.inj (hrecord.symm.trans hr)
      subst hr₀ ht
      refine .fresh hnamed hrecord (fun j => ?_) (fun j r hj => ?_)
      · by_cases hjk : j = k
        · rw [hjk, advance_stage_self]
          rfl
        · rw [advance_stage_ne hjk]
          exact hset j
      · by_cases hjk : j = k
        · rw [hjk, advance_stage_self] at hj
          cases hj
          rw [hjk]
          exact ha
        · rw [advance_stage_ne hjk] at hj
          exact hload j r hj
    | miss hk hr ht =>
      subst ht
      refine .first k hnamed ?_ ?_ ?_ fun r hr => Or.inl ?_
      · rw [effect_of_miss hnamed hrecord hr]
        exact hrecord
      · rw [advance_stage_self]
        rfl
      · rw [advance_stage_ne hother]
        exact hset _
      · rw [advance_stage_ne hother] at hr
        exact hload _ r hr
    | put r hop hk ht =>
      subst ht
      have hr := hload k r hk
      refine .first k hnamed ?_ ?_ ?_ fun r hr => Or.inl ?_
      · rw [RecordOp.effect_of_ok hr]
      · change ((s.advance k .written).stage k).settled = true
        rw [advance_stage_self]
        rfl
      · change ((s.advance k .written).stage !k).settled = false
        rw [advance_stage_ne hother]
        exact hset _
      · change (s.advance k .written).stage (!k) = .loaded r at hr
        rw [advance_stage_ne hother] at hr
        exact hload _ r hr
    | erase r hop hk ht => rw [hops k] at hop; cases hop
    | name hop hk ht =>
      have hk' := hset k
      rw [hk] at hk'
      cases hk'
    | unname hop hk ht => rw [hops k] at hop; cases hop
  | first j hnamed hrecord hset hset' hload =>
    cases hst with
    | silent _ ht => exact ht ▸ .first j hnamed hrecord hset hset' hload
    | load r r' hk hr ha ht =>
      have hkj : k = !j := eq_not_of_settled hset (by rw [hk]; rfl)
      subst hkj ht
      have hr' : r = (ops j).effect r₀ := Option.some.inj (hr.symm.trans hrecord)
      refine .first j hnamed hrecord ?_ ?_ fun x hx => Or.inr ?_
      · rw [advance_stage_ne (Bool.self_ne_not j)]
        exact hset
      · rw [advance_stage_self]
        rfl
      · rw [advance_stage_self] at hx
        cases hx
        rw [← hr']
        exact ha
    | miss hk hr ht =>
      have hkj : k = !j := eq_not_of_settled hset (by rw [hk]; rfl)
      subst hkj ht
      refine .both j hnamed ?_ (fun i => ?_)
      · rw [effect_of_miss hnamed hrecord hr]
        exact hrecord
      · exact settled_advance rfl (by rwa [Bool.not_not]) i
    | put r hop hk ht =>
      have hkj : k = !j := eq_not_of_settled hset (by rw [hk]; rfl)
      subst hkj ht
      obtain ⟨x, hx, ha⟩ := hin₁ r hk
      have hx' : x = (ops j).effect r₀ := Option.some.inj (hx.symm.trans hrecord)
      refine .both j hnamed ?_ (fun i => ?_)
      · rw [← hx', RecordOp.effect_of_ok ha]
      · exact settled_advance rfl (by rwa [Bool.not_not]) i
    | erase r hop hk ht => rw [hops k] at hop; cases hop
    | name hop hk ht =>
      subst ht
      have hjk : j = k := by
        by_contra hne
        rw [← Bool.eq_not_of_ne (Ne.symm hne), hk] at hset'
        cases hset'
      subst hjk
      refine .first j rfl hrecord ?_ ?_ fun r hr => hload r ?_
      · change ((s.advance j .clear).stage j).settled = true
        rw [advance_stage_self]
        rfl
      · change ((s.advance j .clear).stage !j).settled = false
        rw [advance_stage_ne hother]
        exact hset'
      · change (s.advance j .clear).stage (!j) = .loaded r at hr
        rwa [advance_stage_ne hother] at hr
    | unname hop hk ht => rw [hops k] at hop; cases hop
  | both j hnamed hrecord hset =>
    have hk := hset k
    cases hst with
    | silent _ ht => exact ht ▸ .both j hnamed hrecord hset
    | load _ _ hr => rw [hr] at hk; cases hk
    | miss hr => rw [hr] at hk; cases hk
    | put _ _ hr => rw [hr] at hk; cases hk
    | erase _ _ hr => rw [hr] at hk; cases hk
    | name _ _ ht =>
      subst ht
      exact .both j rfl hrecord (settled_advance rfl (hset _))
    | unname hop => rw [hops k] at hop; cases hop

theorem isDelete_of_error {op : RecordOp} {r : SubscriptionRecord} {e : Error}
    (h : op.apply r = .error e) : op.isDelete = false := by
  cases op with
  | delete => cases h
  | _ => rfl

/-- Two calls that are no deletions are one call, when there is a deletion. -/
theorem eq_of_not_delete (hops : ∃ d, (ops d).isDelete = true) {j : Bool}
    (hj : (ops j).isDelete = false) (hk : (ops k).isDelete = false) : j = k := by
  obtain ⟨d, hd⟩ := hops
  have hne : ∀ i, (ops i).isDelete = false → i = !d := by
    intro i hi
    refine Bool.eq_not_of_ne fun h => ?_
    rw [h, hd] at hi
    cases hi
  rw [hne j hj, hne k hk]

/-- A race with a deletion in it, all of whose steps were in place. -/
inductive Deleting (ops : Bool → RecordOp) (s : Race) : Prop where
  | live (r : SubscriptionRecord) (hnamed : s.named = true) (hrecord : s.record = some r)
      (hset : ∀ k, (ops k).isDelete = true → (s.stage k).settled = false)
      (hload : ∀ k r', (ops k).isDelete = false → s.stage k = .loaded r' →
        (ops k).apply r = .ok r')
  | dying (d : Bool) (hdel : (ops d).isDelete = true) (hrecord : s.record = none)
      (hnamed : s.named = false ∧ s.stage d = .clear ∨ s.named = true ∧ s.stage d = .written)

theorem Deleting.step (h : Deleting ops s) (hops : ∃ d, (ops d).isDelete = true)
    (hin : s.InPlace ops k) (hst : Step ops s k t) : Deleting ops t := by
  cases h with
  | live r hnamed hrecord hset hload =>
    cases hst with
    | silent _ ht => exact ht ▸ .live r hnamed hrecord hset hload
    | load x r' hk hr ha ht =>
      have hx : x = r := Option.some.inj (hr.symm.trans hrecord)
      subst hx ht
      refine .live x hnamed hrecord (fun j hj => ?_) fun j y hop hj => ?_
      · by_cases hjk : j = k
        · rw [hjk, advance_stage_self]
          rfl
        · rw [advance_stage_ne hjk]
          exact hset j hj
      · by_cases hjk : j = k
        · rw [hjk, advance_stage_self] at hj
          cases hj
          rw [hjk]
          exact ha
        · rw [advance_stage_ne hjk] at hj
          exact hload j y hop hj
    | miss hk hr ht =>
      subst ht
      have hop : (ops k).isDelete = false := by
        rcases hr with hr | hr | ⟨x, e, _, he⟩
        · rw [hnamed] at hr
          cases hr
        · rw [hrecord] at hr
          cases hr
        · exact isDelete_of_error he
      refine .live r hnamed hrecord (fun j hj => ?_) fun j y hj hy => ?_
      · have hjk : j ≠ k := fun h => by rw [h, hop] at hj; cases hj
        rw [advance_stage_ne hjk]
        exact hset j hj
      · by_cases hjk : j = k
        · rw [hjk, advance_stage_self] at hy
          cases hy
        · rw [advance_stage_ne hjk] at hy
          exact hload j y hj hy
    | put x hop hk ht =>
      subst ht
      refine .live x hnamed rfl (fun j hj => ?_) fun j y hj hy => ?_
      · have hjk : j ≠ k := fun h => by rw [h, hop] at hj; cases hj
        change ((s.advance k .written).stage j).settled = false
        rw [advance_stage_ne hjk]
        exact hset j hj
      · change (s.advance k .written).stage j = .loaded y at hy
        have hjk : j = k := eq_of_not_delete hops hj hop
        rw [hjk, advance_stage_self] at hy
        cases hy
    | erase x hop hk ht =>
      subst ht
      exact .dying k hop rfl (Or.inr ⟨hnamed, advance_stage_self _⟩)
    | name hop hk ht =>
      subst ht
      refine .live r rfl hrecord (fun j hj => ?_) fun j y hj hy => ?_
      · have hjk : j ≠ k := fun h => by rw [h, hop] at hj; cases hj
        change ((s.advance k .clear).stage j).settled = false
        rw [advance_stage_ne hjk]
        exact hset j hj
      · change (s.advance k .clear).stage j = .loaded y at hy
        have hjk : j = k := eq_of_not_delete hops hj hop
        rw [hjk, advance_stage_self] at hy
        cases hy
    | unname hop hk ht =>
      have hk' := hset k hop
      rw [hk] at hk'
      cases hk'
  | dying d hdel hrecord hnamed =>
    have hset : (s.stage d).settled = true := by
      rcases hnamed with ⟨_, h⟩ | ⟨_, h⟩ <;> rw [h] <;> rfl
    cases hst with
    | silent _ ht => exact ht ▸ .dying d hdel hrecord hnamed
    | load x r' hk hr ha ht => rw [hrecord] at hr; cases hr
    | miss hk hr ht =>
      subst ht
      have hdk : d ≠ k := fun h => by rw [h, hk] at hset; cases hset
      refine .dying d hdel hrecord ?_
      rw [advance_stage_ne hdk]
      exact hnamed
    | put x hop hk ht =>
      obtain ⟨r, hr, _⟩ := (hin hop).1 x hk
      rw [hrecord] at hr
      cases hr
    | erase x hop hk ht =>
      subst ht
      have hdk : d ≠ k := fun h => by rw [h, hk] at hset; cases hset
      refine .dying d hdel rfl ?_
      change s.named = false ∧ (s.advance k .written).stage d = .clear ∨
        s.named = true ∧ (s.advance k .written).stage d = .written
      rw [advance_stage_ne hdk]
      exact hnamed
    | name hop hk ht =>
      subst ht
      have hdk : d ≠ k := fun h => by rw [h, hop] at hdel; cases hdel
      have hn := (hin hop).2 hk
      rw [hn] at hnamed
      refine .dying d hdel hrecord (Or.inr ⟨rfl, ?_⟩)
      change (s.advance k .clear).stage d = .written
      rw [advance_stage_ne hdk]
      rcases hnamed with ⟨h, _⟩ | ⟨_, h⟩
      · cases h
      · exact h
    | unname hop hk ht =>
      subst ht
      exact .dying k hop hrecord (Or.inl ⟨rfl, advance_stage_self _⟩)

/-- A race whose outcome is no longer that of a serial order. -/
inductive Spoiled (ops : Bool → RecordOp) (r₀ : SubscriptionRecord) (s : Race) : Prop where
  | lost (k : Bool) (r : SubscriptionRecord) (hops : ∀ k, (ops k).isDelete = false)
      (hset : ∀ k, (s.stage k).settled = true) (hrecord : s.record = some r)
      (hr : (ops k).apply r₀ = .ok r) (hne : (ops k).apply ((ops !k).effect r₀) ≠ .ok r)
  | revived (d : Bool) (hdel : (ops d).isDelete = true) (hop : (ops !d).isDelete = false)
      (hset : (s.stage d).settled = true) (hrecord : s.record ≠ none)
  | renamed (d : Bool) (hdel : (ops d).isDelete = true) (hop : (ops !d).isDelete = false)
      (hset : s.stage d = .clear) (hnamed : s.named = true)

theorem Spoiled.step (h : Spoiled ops r₀ s) (hst : Step ops s k t) : Spoiled ops r₀ t := by
  cases h with
  | lost j r hops hset hrecord hr hne =>
    have hk := hset k
    cases hst with
    | silent _ ht => exact ht ▸ .lost j r hops hset hrecord hr hne
    | load _ _ h => rw [h] at hk; cases hk
    | miss h => rw [h] at hk; cases hk
    | put _ _ h => rw [h] at hk; cases hk
    | erase _ _ h => rw [h] at hk; cases hk
    | name _ _ ht =>
      subst ht
      exact .lost j r hops (settled_advance rfl (hset _)) hrecord hr hne
    | unname hop => rw [hops k] at hop; cases hop
  | revived d hdel hop hset hrecord =>
    have hmoved : ∀ stage : Stage, (s.stage k).settled = false →
        ((s.advance k stage).stage d).settled = true := by
      intro stage hk
      have hdk : d ≠ k := fun h => by rw [h, hk] at hset; cases hset
      rw [advance_stage_ne hdk]
      exact hset
    have hclear : ((s.advance k .clear).stage d).settled = true := by
      by_cases hdk : d = k
      · rw [hdk, advance_stage_self]
        rfl
      · rw [advance_stage_ne hdk]
        exact hset
    cases hst with
    | silent _ ht => exact ht ▸ .revived d hdel hop hset hrecord
    | load r r' hk hr ha ht =>
      subst ht
      exact .revived d hdel hop (hmoved _ (by rw [hk]; rfl)) hrecord
    | miss hk hr ht =>
      subst ht
      exact .revived d hdel hop (hmoved _ (by rw [hk]; rfl)) hrecord
    | put r hopk hk ht =>
      subst ht
      exact .revived d hdel hop (hmoved .written (by rw [hk]; rfl)) (Option.some_ne_none r)
    | erase r hopk hk ht =>
      have hkd : k = !d := eq_not_of_settled hset (by rw [hk]; rfl)
      rw [hkd, hop] at hopk
      cases hopk
    | name hopk hk ht =>
      subst ht
      exact .revived d hdel hop hclear hrecord
    | unname hopk hk ht =>
      subst ht
      exact .revived d hdel hop hclear hrecord
  | renamed d hdel hop hset hnamed =>
    have hmoved : ∀ stage : Stage, s.stage k ≠ .clear → (s.advance k stage).stage d = .clear := by
      intro stage hk
      have hdk : d ≠ k := fun h => hk (h ▸ hset)
      rw [advance_stage_ne hdk]
      exact hset
    cases hst with
    | silent _ ht => exact ht ▸ .renamed d hdel hop hset hnamed
    | load r r' hk hr ha ht =>
      subst ht
      exact .renamed d hdel hop (hmoved _ (by rw [hk]; exact fun h => (by cases h))) hnamed
    | miss hk hr ht =>
      subst ht
      exact .renamed d hdel hop (hmoved _ (by rw [hk]; exact fun h => (by cases h))) hnamed
    | put r hopk hk ht =>
      subst ht
      exact .renamed d hdel hop (hmoved .written (by rw [hk]; exact fun h => (by cases h))) hnamed
    | erase r hopk hk ht =>
      subst ht
      exact .renamed d hdel hop (hmoved .written (by rw [hk]; exact fun h => (by cases h))) hnamed
    | name hopk hk ht =>
      subst ht
      exact .renamed d hdel hop (hmoved .clear (by rw [hk]; exact fun h => (by cases h))) rfl
    | unname hopk hk ht =>
      have hkd : k = !d := Bool.eq_not_of_ne fun h => by rw [h, hset] at hk; cases hk
      rw [hkd, hop] at hopk
      cases hopk

theorem Step.put_of_loaded {r : SubscriptionRecord} (hst : Step ops s k t)
    (hk : s.stage k = .loaded r) (hop : (ops k).isDelete = false) :
    t = { s.advance k .written with record := some r } := by
  cases hst with
  | silent h =>
    rw [hk] at h
    rcases h with h | h <;> cases h
  | put r' _ hk' h =>
    rw [hk] at hk'
    cases hk'
    exact h
  | erase _ h => rw [hop] at h; cases h
  | load _ _ h => rw [hk] at h; cases h
  | miss h => rw [hk] at h; cases h
  | name _ h => rw [hk] at h; cases h
  | unname _ h => rw [hk] at h; cases h

theorem Step.name_of_written (hst : Step ops s k t) (hk : s.stage k = .written)
    (hop : (ops k).isDelete = false) : t = { s.advance k .clear with named := true } := by
  cases hst with
  | silent h =>
    rw [hk] at h
    rcases h with h | h <;> cases h
  | name _ _ h => exact h
  | unname h => rw [hop] at h; cases h
  | load _ _ h => rw [hk] at h; cases h
  | miss h => rw [hk] at h; cases h
  | put _ _ h => rw [hk] at h; cases h
  | erase _ _ h => rw [hk] at h; cases h

theorem not_inPlace (h : ¬ s.InPlace ops k) :
    (ops k).isDelete = false ∧
      ((∃ r', s.stage k = .loaded r' ∧ ∀ r, s.record = some r → (ops k).apply r ≠ .ok r') ∨
        s.stage k = .written ∧ s.named = false) := by
  simp only [InPlace, Classical.not_imp, not_and_or, not_forall, Bool.not_eq_true] at h
  obtain ⟨hop, ⟨r', hr', hx⟩ | ⟨hw, hn⟩⟩ := h
  · exact ⟨hop, Or.inl ⟨r', hr', fun r hr ha => hx ⟨r, hr, ha⟩⟩⟩
  · exact ⟨hop, Or.inr ⟨hw, hn⟩⟩

theorem Updating.spoiled (h : Updating ops r₀ s) (hops : ∀ k, (ops k).isDelete = false)
    (hin : ¬ s.InPlace ops k) (hst : Step ops s k t) : Spoiled ops r₀ t := by
  obtain ⟨hop, ⟨r', hr', hx⟩ | ⟨hw, hn⟩⟩ := not_inPlace hin
  · cases h with
    | fresh hnamed hrecord hset hload => exact absurd (hload k r' hr') (hx r₀ hrecord)
    | first j hnamed hrecord hset hset' hload =>
      have hkj : k = !j := eq_not_of_settled hset (by rw [hr']; rfl)
      subst hkj
      have hne := hx _ hrecord
      have ht := hst.put_of_loaded hr' hop
      subst ht
      refine .lost (!j) r' hops (settled_advance rfl (by rwa [Bool.not_not])) rfl ?_ ?_
      · exact (hload r' hr').resolve_right hne
      · rw [Bool.not_not]
        exact hne
    | both j hnamed hrecord hset =>
      have hk := hset k
      rw [hr'] at hk
      cases hk
  · have hnamed : s.named = true := by
      cases h with
      | fresh hnamed => exact hnamed
      | first _ hnamed => exact hnamed
      | both _ hnamed => exact hnamed
    rw [hnamed] at hn
    cases hn

theorem Deleting.spoiled (h : Deleting ops s) (hin : ¬ s.InPlace ops k) (hst : Step ops s k t) :
    Spoiled ops r₀ t := by
  obtain ⟨hop, hin⟩ := not_inPlace hin
  cases h with
  | live r hnamed hrecord hset hload =>
    rcases hin with ⟨r', hr', hx⟩ | ⟨_, hn⟩
    · exact absurd (hload k r' hop hr') (hx r hrecord)
    · rw [hnamed] at hn
      cases hn
  | dying d hdel hrecord hnamed =>
    have hkd : k = !d := Bool.eq_not_of_ne fun h => by rw [h, hdel] at hop; cases hop
    have hdk : d ≠ !d := Bool.self_ne_not d
    subst hkd
    rcases hin with ⟨r', hr', _⟩ | ⟨hw, hn⟩
    · have ht := hst.put_of_loaded hr' hop
      subst ht
      refine .revived d hdel hop ?_ (Option.some_ne_none r')
      change ((s.advance (!d) .written).stage d).settled = true
      rw [advance_stage_ne hdk]
      rcases hnamed with ⟨_, h⟩ | ⟨_, h⟩ <;> rw [h] <;> rfl
    · have ht := hst.name_of_written hw hop
      subst ht
      refine .renamed d hdel hop ?_ rfl
      change (s.advance (!d) .clear).stage d = .clear
      rw [advance_stage_ne hdk]
      rw [hn] at hnamed
      rcases hnamed with ⟨_, h⟩ | ⟨h, _⟩
      · exact h
      · cases h

/-- The record row and the name row after the call `k` and then the other one. -/
def outcome (ops : Bool → RecordOp) (r₀ : SubscriptionRecord) (k : Bool) :
    Option SubscriptionRecord × Bool :=
  if (ops k).isDelete || (ops !k).isDelete then (none, false)
  else (some ((ops !k).effect ((ops k).effect r₀)), true)

theorem outcome_of_delete {d : Bool} (hd : (ops d).isDelete = true) :
    outcome ops r₀ k = (none, false) := by
  rw [outcome, if_pos]
  rcases Bool.eq_or_eq_not d k with h | h <;> rw [h] at hd <;> simp [hd]

theorem outcome_of_not_delete (hops : ∀ k, (ops k).isDelete = false) :
    outcome ops r₀ k = (some ((ops !k).effect ((ops k).effect r₀)), true) := by
  rw [outcome, if_neg]
  simp [hops]

def Serialising (ops : Bool → RecordOp) (r₀ : SubscriptionRecord) (s : Race) : Prop :=
  (∀ k, (ops k).isDelete = false) ∧ Updating ops r₀ s ∨
    (∃ d, (ops d).isDelete = true) ∧ Deleting ops s

theorem Serialising.step (h : Serialising ops r₀ s) (hin : s.InPlace ops k)
    (hst : Step ops s k t) : Serialising ops r₀ t := by
  rcases h with ⟨hops, h⟩ | ⟨hops, h⟩
  · exact Or.inl ⟨hops, h.step hops hin hst⟩
  · exact Or.inr ⟨hops, h.step hops hin hst⟩

theorem Serialising.spoiled (h : Serialising ops r₀ s) (hin : ¬ s.InPlace ops k)
    (hst : Step ops s k t) : Spoiled ops r₀ t := by
  rcases h with ⟨hops, h⟩ | ⟨_, h⟩
  · exact h.spoiled hops hin hst
  · exact h.spoiled hin hst

theorem Serialising.outcome (h : Serialising ops r₀ s) (hend : ∀ k, s.stage k = .clear) :
    ∃ k, (s.record, s.named) = outcome ops r₀ k := by
  have hset : ∀ k, (s.stage k).settled = true := fun k => by
    rw [hend k]
    rfl
  rcases h with ⟨hops, h⟩ | ⟨hops, h⟩
  · cases h with
    | fresh _ _ hset' => 
      have hk := hset' true
      rw [hset true] at hk
      cases hk
    | first k _ _ _ hset' =>
      rw [hset] at hset'
      cases hset'
    | both k hnamed hrecord =>
      exact ⟨k, by rw [outcome_of_not_delete hops, hnamed, hrecord]⟩
  · obtain ⟨d, hd⟩ := hops
    cases h with
    | live r _ _ hset' =>
      have hk := hset' d hd
      rw [hset d] at hk
      cases hk
    | dying j hdel hrecord hnamed =>
      refine ⟨d, ?_⟩
      rw [hend j] at hnamed
      rw [outcome_of_delete hd, hrecord]
      rcases hnamed with ⟨h, _⟩ | ⟨_, h⟩
      · rw [h]
      · cases h

theorem Spoiled.not_outcome (h : Spoiled ops r₀ s) (k : Bool) :
    (s.record, s.named) ≠ outcome ops r₀ k := by
  intro hout
  cases h with
  | lost j r hops hset hrecord hr hne =>
    rw [outcome_of_not_delete hops, hrecord] at hout
    have hrk : r = (ops !k).effect ((ops k).effect r₀) := Option.some.inj (Prod.mk.inj hout).1
    have heff := RecordOp.effect_of_ok hr
    have hover : (ops j).effect ((ops !j).effect r₀) = r := by
      rcases Bool.eq_or_eq_not j k with h | h
      · subst h
        rw [← heff]
        refine RecordOp.effect_absorb _ _ _ ?_
        rw [← hrk, heff]
      · rw [h, Bool.not_not]
        exact hrk.symm
    cases ha : (ops j).apply ((ops !j).effect r₀) with
    | ok x =>
      rw [RecordOp.effect_of_ok ha] at hover
      exact hne (ha.trans (by rw [hover]))
    | error e =>
      rw [RecordOp.apply_error ha r₀] at hr
      cases hr
  | revived d hdel _ _ hrecord =>
    rw [outcome_of_delete hdel] at hout
    exact hrecord (Prod.mk.inj hout).1
  | renamed d hdel _ _ hnamed =>
    rw [outcome_of_delete hdel, hnamed] at hout
    cases (Prod.mk.inj hout).2

end Race

/-- The record row and the name row of the subscription. -/
def recordRows (id : Nat) (name : String) (kv : Kv) : Option SubscriptionRecord × Option Nat :=
  (kv.subs.get id, kv.subNames.get name)

/-- The store after the operation, whether it succeeds or not. -/
def RecordOp.after (id : Nat) (name : String) (op : RecordOp) (kv : Kv) : Kv :=
  match op.perform id name kv with
  | .ok _ kv' => kv'
  | .error _ kv' => kv'

/-- The call `k` and then the other one. -/
def serial (id : Nat) (name : String) (ops : Bool → RecordOp) (kv : Kv) (k : Bool) : Kv :=
  (ops !k).after id name ((ops k).after id name kv)

section Serial

variable {id : Nat} {name : String} {op : RecordOp} {kv : Kv}

theorem after_missing (hr : kv.subs.get id = none) (hn : kv.subNames.get name = none) :
    op.after id name kv = kv := by
  have hfind : ∃ e, op.find id name kv = .error e := by
    cases hop : op.byName with
    | true => 
      refine ⟨.notFound name, ?_⟩
      simp only [RecordOp.find, hop, if_true, SubscriptionStore.get, hn]
    | false =>
      refine ⟨.notFound s!"sub_id={id}", ?_⟩
      simp only [RecordOp.find, hop, Bool.false_eq_true, if_false, SubscriptionStore.load, hr]
  obtain ⟨e, he⟩ := hfind
  rw [RecordOp.after, RecordOp.perform_eq, he]
  cases op <;> rfl

theorem ensures_commit (hh : kv.Healthy) (r : SubscriptionRecord) (E : Error → Kv → Prop) :
    Ensures (op.commit r) kv
      (fun _ kv' => kv'.Healthy ∧ recordRows r.id r.name kv' =
        if op.isDelete then (none, none) else (some r, some r.id)) E := by
  have hf : ∀ n, kv.ok n ≠ false := fun n => by simp [hh n]
  cases hop : op.isDelete with
  | true =>
    simp only [RecordOp.commit, hop, if_true, ensures_bind, deleteSubRow, deleteSubName,
      deleteCursor, deleteIdx, ensures_kvWrite]
    refine ⟨fun _ => ⟨fun _ => ⟨fun _ => ⟨fun _ => ⟨hh, ?_⟩, fun h => absurd h (hf _)⟩,
      fun h => absurd h (hf _)⟩, fun h => absurd h (hf _)⟩, fun h => absurd h (hf _)⟩
    simp only [recordRows, SortedMap.get_erase_self]
  | false =>
    simp only [RecordOp.commit, hop, Bool.false_eq_true, if_false, ensures_bind,
      SubscriptionStore.persist, putSub, putSubName, ensures_kvWrite]
    refine ⟨fun _ => ⟨fun _ => ⟨hh, ?_⟩, fun h => absurd h (hf _)⟩, fun h => absurd h (hf _)⟩
    simp only [recordRows, SortedMap.get_insert_self]

theorem after_rows (op : RecordOp) (hh : kv.Healthy) {r : SubscriptionRecord} (hr : kv.subs.get r.id = some r)
    (hn : kv.subNames.get r.name = some r.id) :
    (op.after r.id r.name kv).Healthy ∧
    recordRows r.id r.name (op.after r.id r.name kv) =
      if op.isDelete then (none, none) else (some (op.effect r), some r.id) := by
  have hfind : op.find r.id r.name kv = .ok r := by
    simp only [RecordOp.find, SubscriptionStore.get, SubscriptionStore.load, hn, hr, ite_self]
  rw [RecordOp.after, RecordOp.perform_eq, hfind]
  simp only
  cases ha : op.apply r with
  | error e =>
    have hop : op.isDelete = false := Race.isDelete_of_error ha
    simp only [hop, RecordOp.effect_of_error ha, recordRows, hr, hn]
    exact ⟨hh, rfl⟩
  | ok r' =>
    obtain ⟨hid, hname⟩ := apply_sane ha
    have hcommit : Ensures (op.commit r') kv
        (fun _ kv' => kv'.Healthy ∧ recordRows r.id r.name kv' =
          if op.isDelete then (none, none) else (some r', some r.id)) (fun _ _ => False) := by
      rw [← hid, ← hname]
      exact ensures_commit hh r' _
    simp only [RecordOp.effect_of_ok ha]
    cases hm : op.commit r' kv with
    | ok _ kv' => exact hcommit.of_ok hm
    | error _ kv' => exact (hcommit.of_error hm).elim

/-- The rows a race shows, as the store has them. -/
def Race.rows (id : Nat) (out : Option SubscriptionRecord × Bool) :
    Option SubscriptionRecord × Option Nat :=
  (out.1, if out.2 then some id else none)

theorem rows_injective (id : Nat) : Function.Injective (Race.rows id) := by
  rintro ⟨a, b⟩ ⟨c, d⟩ h
  obtain ⟨hac, hbd⟩ := Prod.mk.inj h
  simp only at hac hbd
  subst hac
  cases b <;> cases d <;> first | rfl | cases hbd

theorem serial_rows {ops : Bool → RecordOp} (hh : kv.Healthy) {r : SubscriptionRecord}
    (hr : kv.subs.get r.id = some r) (hn : kv.subNames.get r.name = some r.id) (k : Bool) :
    recordRows r.id r.name (serial r.id r.name ops kv k) =
      Race.rows r.id (Race.outcome ops r k) := by
  obtain ⟨hh', hrows⟩ := after_rows (ops k) hh hr hn
  unfold serial
  cases hop : (ops k).isDelete with
  | true =>
    rw [hop, if_pos rfl] at hrows
    obtain ⟨hr', hn'⟩ := Prod.mk.inj hrows
    rw [after_missing hr' hn', hrows, Race.outcome_of_delete hop]
    rfl
  | false =>
    rw [hop, if_neg (by decide)] at hrows
    obtain ⟨hr', hn'⟩ := Prod.mk.inj hrows
    have hsame := RecordOp.effect_sane (ops k) r
    have hrows' := (after_rows (ops !k) hh' (r := (ops k).effect r) (by rw [hsame.1]; exact hr')
      (by rw [hsame.1, hsame.2]; exact hn')).2
    rw [hsame.1, hsame.2] at hrows'
    rw [hrows']
    cases hop' : (ops !k).isDelete with
    | true =>
      rw [Race.outcome_of_delete hop']
      rfl
    | false =>
      rw [Race.outcome, hop, hop']
      rfl

end Serial

section Runs

variable {id : Nat} {name : String} {ops : Bool → RecordOp} {r : SubscriptionRecord} {s : Racers}

theorem Racers.Sane.rows (h : s.Sane id name) :
    recordRows id name s.kv = Race.rows id ((s.view id name).record, (s.view id name).named) := by
  have hname : s.kv.subNames.get name =
      if (s.kv.subNames.get name).isSome then some id else none := by
    cases hn : s.kv.subNames.get name with
    | none => rfl
    | some i => rw [h.named i hn]; rfl
  rw [recordRows, hname]
  rfl

theorem Racers.Sane.inPlace (h : s.Sane id name) (k : Bool) :
    (s.view id name).InPlace ops k ↔ s.InPlace id name ops k := by
  unfold Racers.InPlace Race.InPlace
  refine imp_congr_right fun _ => ?_
  cases hk : s.phases k with
  | loaded r =>
    simp only [Racers.view, hk, RecordPhase.stage, Stage.loaded.injEq]
    refine ⟨fun hin => hin.1 r rfl, fun hin => ⟨fun r' hr' => hr' ▸ hin, fun h => (by cases h)⟩⟩
  | written r =>
    simp only [Racers.view, hk, RecordPhase.stage]
    refine ⟨fun hin => ?_, fun hin => ⟨fun _ h => (by cases h), fun _ => by rw [hin]; rfl⟩⟩
    obtain ⟨i, hi⟩ := Option.isSome_iff_exists.mp (hin.2 trivial)
    rw [hi, h.named i hi]
  | _ => 
    simp only [Racers.view, hk, RecordPhase.stage, iff_true]
    exact ⟨fun _ h => (by cases h), fun h => (by cases h)⟩

theorem Racers.begin_sane {kv : Kv} (hh : kv.Healthy) (hr : kv.subs.get r.id = some r)
    (hn : kv.subNames.get r.name = some r.id) : (Racers.begin kv).Sane r.id r.name where
  healthy := hh
  record r' hr' := by
    rw [Option.some.inj (hr.symm.trans hr')]
    exact ⟨rfl, rfl⟩
  named i hi := Option.some.inj (hi.symm.trans hn)
  phases _ := trivial

theorem Racers.begin_serialising {kv : Kv} (hr : kv.subs.get r.id = some r)
    (hn : kv.subNames.get r.name = some r.id) :
    ((Racers.begin kv).view r.id r.name).Serialising ops r := by
  have hnamed : ((Racers.begin kv).view r.id r.name).named = true := by
    simp only [Racers.view, Racers.begin, hn, Option.isSome_some]
  by_cases hops : ∃ d, (ops d).isDelete = true
  · exact Or.inr ⟨hops, .live r hnamed hr (fun _ _ => rfl) fun _ _ _ h => (by cases h)⟩
  · simp only [not_exists, Bool.not_eq_true] at hops
    exact Or.inl ⟨hops, .fresh hnamed hr (fun _ => rfl) fun _ _ h => (by cases h)⟩

theorem Racers.inv_step (k : Bool) (h : s.Sane id name ∧ ((s.view id name).Serialising ops r ∨
      (s.view id name).Spoiled ops r)) :
    (s.step id name ops k).2.Sane id name ∧
      (((s.step id name ops k).2.view id name).Serialising ops r ∨
        ((s.step id name ops k).2.view id name).Spoiled ops r) := by
  obtain ⟨hsane, hst⟩ := stepped ops h.1 k
  refine ⟨hsane, ?_⟩
  rcases h.2 with hs | hs
  · by_cases hin : (s.view id name).InPlace ops k
    · exact Or.inl (hs.step hin hst)
    · exact Or.inr (hs.spoiled hin hst)
  · exact Or.inr (hs.step hst)

def RecordPhase.isFinished : RecordPhase → Bool
  | .finished => true
  | _ => false

theorem RecordPhase.stage_of_isFinished {phase : RecordPhase} (h : phase.isFinished = true) :
    phase.stage = .clear := by
  cases phase with
  | finished => rfl
  | _ => cases h

end Runs

/-- The race on `kv`, with one entry of the schedule for each step. -/
def race (r : SubscriptionRecord) (ops : Bool → RecordOp) (kv : Kv) (schedule : List Bool) :
    Racers :=
  Run.final (Racers.step r.id r.name ops) (.begin kv) schedule

section Results

variable {r : SubscriptionRecord} {ops : Bool → RecordOp} {kv : Kv} {schedule : List Bool}

theorem race_inv (ops : Bool → RecordOp) (schedule : List Bool) (hh : kv.Healthy) (hr : kv.subs.get r.id = some r)
    (hn : kv.subNames.get r.name = some r.id) :
    (race r ops kv schedule).Sane r.id r.name ∧
      (((race r ops kv schedule).view r.id r.name).Serialising ops r ∨
        ((race r ops kv schedule).view r.id r.name).Spoiled ops r) :=
  Run.inv_final
    (P := fun s : Racers => s.Sane r.id r.name ∧ ((s.view r.id r.name).Serialising ops r ∨
      (s.view r.id r.name).Spoiled ops r)) (C := fun _ => True)
    (fun _ k h _ => Racers.inv_step k h)
    ⟨Racers.begin_sane hh hr hn, Or.inl (Racers.begin_serialising hr hn)⟩ fun _ _ => trivial

theorem spoiled_of_out_of_place (hh : kv.Healthy) (hr : kv.subs.get r.id = some r)
    (hn : kv.subNames.get r.name = some r.id) {tr : Run.Transition Racers Bool Unit}
    (htr : tr ∈ Run.trace (Racers.step r.id r.name ops) (.begin kv) schedule)
    (hin : ¬ tr.pre.InPlace r.id r.name ops tr.input) :
    ((race r ops kv schedule).view r.id r.name).Spoiled ops r := by
  obtain ⟨l, l', hl'⟩ := List.append_of_mem htr
  obtain ⟨is₁, k, is₂, hsched, _, hk, _⟩ := Run.trace_eq_append hl'
  have hpre := race_inv ops is₁ hh hr hn
  rw [hk] at hin
  obtain ⟨hsane, hst⟩ := stepped ops hpre.1 k
  have hpost : (((race r ops kv is₁).step r.id r.name ops k).2.view r.id r.name).Spoiled ops r := by
    rcases hpre.2 with hs | hs
    · exact hs.spoiled (fun h => hin ((hpre.1.inPlace k).mp h)) hst
    · exact hs.step hst
  have hend : (Run.final (Racers.step r.id r.name ops) ((race r ops kv is₁).step r.id r.name ops k).2
      is₂).Sane r.id r.name ∧ ((Run.final (Racers.step r.id r.name ops)
        ((race r ops kv is₁).step r.id r.name ops k).2 is₂).view r.id r.name).Spoiled ops r :=
    Run.inv_final
      (P := fun s : Racers => s.Sane r.id r.name ∧ (s.view r.id r.name).Spoiled ops r)
      (C := fun _ => True)
      (fun s k h _ => ⟨(stepped ops h.1 k).1, h.2.step (stepped ops h.1 k).2⟩) ⟨hsane, hpost⟩
      fun _ _ => trivial
  rw [race, hsched, Run.final_append]
  exact hend.2

theorem record_calls_serialise_iff (hh : kv.Healthy) (hr : kv.subs.get r.id = some r)
    (hn : kv.subNames.get r.name = some r.id)
    (hdone : ∀ k, ((race r ops kv schedule).phases k).isFinished = true) :
    (∃ k, recordRows r.id r.name (race r ops kv schedule).kv =
        recordRows r.id r.name (serial r.id r.name ops kv k)) ↔
      ∀ tr ∈ Run.trace (Racers.step r.id r.name ops) (.begin kv) schedule,
        tr.pre.InPlace r.id r.name ops tr.input := by
  have hrows := (race_inv ops schedule hh hr hn).1.rows
  constructor
  · rintro ⟨k, hk⟩ tr htr
    by_contra hin
    rw [hrows, serial_rows hh hr hn] at hk
    exact (spoiled_of_out_of_place hh hr hn htr hin).not_outcome k (rows_injective _ hk)
  · intro hin
    have hser : (race r ops kv schedule).Sane r.id r.name ∧
        ((race r ops kv schedule).view r.id r.name).Serialising ops r :=
      Run.inv_final
        (P := fun s : Racers => s.Sane r.id r.name ∧ (s.view r.id r.name).Serialising ops r)
        (C := fun tr => tr.pre.InPlace r.id r.name ops tr.input)
        (fun s k h hc => ⟨(stepped ops h.1 k).1, h.2.step ((h.1.inPlace k).mpr hc) (stepped ops h.1 k).2⟩)
        ⟨Racers.begin_sane hh hr hn, Racers.begin_serialising hr hn⟩ hin
    obtain ⟨k, hk⟩ := hser.2.outcome fun k => RecordPhase.stage_of_isFinished (hdone k)
    refine ⟨k, ?_⟩
    rw [hrows, serial_rows hh hr hn, hk]

end Results

/-- A store with one subscription. -/
def oneRecord : SubscriptionRecord :=
  SubscriptionStore.newRecord "projects/p/subscriptions/subA" "projects/p/topics/top1" 1 0 {} 0 2

def oneSubscription : Kv :=
  { Kv.empty with
    subs := (∅ : SortedMap Nat SubscriptionRecord).insert 2 oneRecord
    subNames := (∅ : SortedMap String Nat).insert oneRecord.name 2 }

def touchAndDetach : Bool → RecordOp
  | false => .touch 5
  | true => .detach

theorem record_calls_serialise_iff_detach_first :
    (∃ k, recordRows oneRecord.id oneRecord.name (race oneRecord touchAndDetach oneSubscription
          [true, true, true, true, false, false, false]).kv =
        recordRows oneRecord.id oneRecord.name
          (serial oneRecord.id oneRecord.name touchAndDetach oneSubscription k)) ↔
      ∀ tr ∈ Run.trace (Racers.step oneRecord.id oneRecord.name touchAndDetach)
          (.begin oneSubscription) [true, true, true, true, false, false, false],
        tr.pre.InPlace oneRecord.id oneRecord.name touchAndDetach tr.input :=
  record_calls_serialise_iff (fun _ => rfl) (SortedMap.get_insert_self ..)
    (SortedMap.get_insert_self ..) (by decide +kernel)

/-- The touch reads the record before the detach and writes it back after it. -/
theorem touch_undoes_detach :
    (∀ k, ((race oneRecord touchAndDetach oneSubscription
      [false, true, true, true, true, false, false]).phases k).isFinished = true) ∧
    ¬ ∃ k, recordRows oneRecord.id oneRecord.name (race oneRecord touchAndDetach oneSubscription
          [false, true, true, true, true, false, false]).kv =
        recordRows oneRecord.id oneRecord.name
          (serial oneRecord.id oneRecord.name touchAndDetach oneSubscription k) := by
  have hdetached : ∀ k,
      (recordRows oneRecord.id oneRecord.name (race oneRecord touchAndDetach oneSubscription
        [false, true, true, true, true, false, false]).kv).1.map (·.detached) ≠
      (recordRows oneRecord.id oneRecord.name
        (serial oneRecord.id oneRecord.name touchAndDetach oneSubscription k)).1.map
        (·.detached) := by
    decide +kernel
  refine ⟨by decide +kernel, ?_⟩
  rintro ⟨k, hk⟩
  exact hdetached k (by rw [hk])

end OpenPubusb
