import OpenPubusb.LeaseFailures
import OpenPubusb.PushManager

/-! What a pass of the push manager leaves, over every history of the process. Every
running dispatcher is the one that the entry of its subscription holds, so a pass can be
described by what it does to each entry and its task. -/

namespace OpenPubusb

open Hoare

namespace Daemon

/-- The store keeps its subscriptions, and stays consistent. -/
structure KeptStore (s t : Engine) : Prop where
  subs : t.kv.subs = s.kv.subs
  sound : Consistent s.kv ∧ s.kv.Healthy → Consistent t.kv ∧ t.kv.Healthy

theorem KeptStore.refl (s : Engine) : KeptStore s s := ⟨rfl, id⟩

theorem KeptStore.trans {s t u : Engine} (h : KeptStore s t) (h' : KeptStore t u) :
    KeptStore s u :=
  ⟨h'.subs.trans h.subs, h'.sound ∘ h.sound⟩

theorem step_sound {s : Engine} (i : Input) (h : Consistent s.kv ∧ s.kv.Healthy) :
    Consistent (step s i).2.kv ∧ (step s i).2.kv.Healthy := by
  have hev := (step_path i h.1 h.2).evolves h.1
  exact ⟨hev.consistent, hev.healthy h.2⟩

theorem step_kept {s : Engine} {i : Input} (h : Keeps (OnStore SameSubs) (perform i.nowMs i.op)) :
    KeptStore s (step s i).2 := by
  refine ⟨?_, step_sound i⟩
  exact ensures_step (P := fun t => t.kv.subs = s.kv.subs)
    ((h s).mono (fun _ _ ht => ht.1) (fun _ _ ht => ht.1))

theorem openStream_kept (s : Engine) (nowMs : Int) (name : String) (secs messages bytes : Int) :
    KeptStore s (step s ⟨nowMs, .openStream name secs messages bytes⟩).2 := by
  refine step_kept ?_
  refine Keeps.bind (Keeps.bind (keeps_attached _) fun _ => ?_) fun _ => Keeps.pure _
  refine Keeps.bind (Keeps.bind Keeps.get fun _ => ?_) fun _ => Keeps.pure _
  exact Keeps.bind (keeps_memory fun _ => rfl) fun _ => Keeps.pure _

theorem closeStream_kept (s : Engine) (nowMs : Int) (streamId : Nat) :
    KeptStore s (step s ⟨nowMs, .closeStream streamId⟩).2 :=
  step_kept (Keeps.bind (keeps_onStreamClosed _) fun _ => Keeps.pure _)

/-- Only the state of one dispatcher changed, and it was not revived. -/
structure Turned (handle : Nat) (d d' : Daemon) : Prop where
  manager : d'.manager = d.manager
  spawned : d'.spawned = d.spawned
  others : ∀ k ≠ handle, d'.tasks.get k = d.tasks.get k
  task : d'.tasks.get handle = d.tasks.get handle ∨ ∃ t st, d.tasks.get handle = some t ∧
    d'.tasks.get handle = some { t with state := st } ∧
    (({ t with state := st } : DispatcherTask).running = true → t.running = true)

variable {d d' d'' : Daemon} {handle : Nat} {nowMs : Int}

theorem Turned.refl (handle : Nat) (d : Daemon) : Turned handle d d :=
  ⟨rfl, rfl, fun _ _ => rfl, Or.inl rfl⟩

theorem Turned.trans (h : Turned handle d d') (h' : Turned handle d' d'') :
    Turned handle d d'' := by
  refine ⟨h'.manager.trans h.manager, h'.spawned.trans h.spawned,
    fun k hk => (h'.others k hk).trans (h.others k hk), ?_⟩
  rcases h.task with heq | ⟨t, st, ht, ht', hrun⟩
  · rw [← heq]
    exact h'.task
  · rcases h'.task with heq' | ⟨u, st', hu, hu', hrun'⟩
    · exact Or.inr ⟨t, st, ht, heq'.trans ht', hrun⟩
    · rw [ht', Option.some.injEq] at hu
      subst hu
      exact Or.inr ⟨t, st', ht, hu', fun hr => hrun (hrun' hr)⟩

theorem turned_setState {t : DispatcherTask} (ht : d.tasks.get handle = some t)
    {st : DispatcherState}
    (hst : ({ t with state := st } : DispatcherTask).running = true → t.running = true)
    (engine : Engine) : Turned handle d ({ d with engine := engine }.setState handle t st) := by
  refine ⟨rfl, rfl, fun k hk => ?_, Or.inr ⟨t, st, ht, ?_, hst⟩⟩
  · exact SortedMap.get_insert_ne _ _ hk
  · simp only [setState, SortedMap.get_insert, if_true]

theorem opened_turned (d : Daemon) (nowMs : Int) (handle : Nat) :
    Turned handle d (d.opened nowMs handle) ∧ KeptStore d.engine (d.opened nowMs handle).engine ∧
      ∀ t, (d.opened nowMs handle).tasks.get handle = some t → t.state ≠ .starting := by
  unfold opened
  cases ht : d.tasks.get handle with
  | none =>
    refine ⟨.refl .., .refl _, fun t h => ?_⟩
    rw [ht] at h
    cases h
  | some t =>
    dsimp only
    cases hst : t.state with
    | starting =>
      have hrun : t.running = true := by simp only [DispatcherTask.running, hst]
      have hset : ∀ (d₀ : Daemon) (st : DispatcherState), st ≠ .starting → ∀ u,
          (d₀.setState handle t st).tasks.get handle = some u → u.state ≠ .starting := by
        intro d₀ st hst u hu
        simp only [setState, SortedMap.get_insert, if_true, Option.some.injEq] at hu
        rw [← hu]
        exact hst
      have hkept := openStream_kept d.engine nowMs t.args.subscriptionFullName
        t.args.ackDeadlineSecs (max t.args.maxConcurrency 1 : Nat) 0
      simp only
      split
      · exact ⟨turned_setState ht (fun _ => hrun) _, hkept, hset _ _ (by simp)⟩
      · exact ⟨turned_setState ht (fun _ => hrun) _, hkept, hset _ _ (by simp)⟩
    | streaming streamId =>
      refine ⟨.refl .., .refl _, fun u hu => ?_⟩
      rw [ht, Option.some.injEq] at hu
      rw [← hu, hst]
      simp
    | ended =>
      refine ⟨.refl .., .refl _, fun u hu => ?_⟩
      rw [ht, Option.some.injEq] at hu
      rw [← hu, hst]
      simp

theorem closed_turned (d : Daemon) (nowMs : Int) (handle : Nat) :
    Turned handle d (d.closed nowMs handle) ∧ KeptStore d.engine (d.closed nowMs handle).engine ∧
      ((∀ t, d.tasks.get handle = some t → t.state ≠ .starting) →
        ∀ t, (d.closed nowMs handle).tasks.get handle = some t → t.running = false) := by
  unfold closed
  cases ht : d.tasks.get handle with
  | none =>
    refine ⟨.refl .., .refl _, fun _ t h => ?_⟩
    rw [ht] at h
    cases h
  | some t =>
    dsimp only
    cases hst : t.state with
    | streaming streamId =>
      refine ⟨turned_setState ht (fun h => by cases h) _, closeStream_kept .., fun _ u hu => ?_⟩
      simp only [setState, SortedMap.get_insert, if_true, Option.some.injEq] at hu
      rw [← hu]
      rfl
    | starting => exact ⟨.refl .., .refl _, fun h => absurd hst (h t rfl)⟩
    | ended =>
      refine ⟨.refl .., .refl _, fun _ u hu => ?_⟩
      rw [ht, Option.some.injEq] at hu
      rw [← hu, DispatcherTask.running, hst]

theorem stop_turned (d : Daemon) (nowMs : Int) (handle : Nat) :
    Turned handle d (d.stop nowMs handle) ∧ KeptStore d.engine (d.stop nowMs handle).engine ∧
      ∀ t, (d.stop nowMs handle).tasks.get handle = some t → t.running = false := by
  obtain ⟨hopen, hkept, hnot⟩ := opened_turned d nowMs handle
  obtain ⟨hclose, hkept', hended⟩ := closed_turned (d.opened nowMs handle) nowMs handle
  exact ⟨hopen.trans hclose, hkept.trans hkept', hended hnot⟩

theorem panicked_turned (d : Daemon) (handle : Nat) :
    Turned handle d (d.panicked handle) ∧ (d.panicked handle).engine = d.engine := by
  unfold panicked
  cases ht : d.tasks.get handle with
  | none => exact ⟨.refl .., rfl⟩
  | some t => exact ⟨turned_setState ht (fun h => by cases h) _, rfl⟩

theorem poll_turned (d : Daemon) (nowMs : Int) (handle : Nat) :
    Turned handle d (d.poll nowMs handle) ∧ (Consistent d.engine.kv ∧ d.engine.kv.Healthy →
      Consistent (d.poll nowMs handle).engine.kv ∧ (d.poll nowMs handle).engine.kv.Healthy) := by
  have hopen := opened_turned d nowMs handle
  unfold poll
  cases ht : d.tasks.get handle with
  | none => exact ⟨.refl .., id⟩
  | some t =>
    dsimp only
    cases hst : t.state with
    | streaming streamId =>
      have hengine : ∀ e, Turned handle d { d with engine := e } :=
        fun _ => ⟨rfl, rfl, fun _ _ => rfl, Or.inl rfl⟩
      simp only
      split
      · obtain ⟨hclose, hkept, _⟩ := closed_turned
          { d with engine := (step d.engine ⟨nowMs, .leaseForStream streamId⟩).2 } nowMs handle
        exact ⟨(hengine _).trans hclose, fun h => hkept.sound (step_sound _ h)⟩
      · exact ⟨hengine _, step_sound _⟩
    | starting => exact ⟨hopen.1, hopen.2.1.sound⟩
    | ended => exact ⟨hopen.1, hopen.2.1.sound⟩

/-- Every entry holds a task that was started for it, and a running task is held by the
entry of its subscription. -/
structure Managed (d : Daemon) : Prop where
  sound : Consistent d.engine.kv ∧ d.engine.kv.Healthy
  entry : ∀ {id e}, d.manager.entries.get id = some e →
    ∃ t, d.tasks.get e.handle = some t ∧ t.args.subId = id
  running : ∀ {h t}, d.tasks.get h = some t → t.running = true →
    ∃ e, d.manager.entries.get t.args.subId = some e ∧ e.handle = h
  spawned : ∀ {h t}, d.tasks.get h = some t → h ≤ d.spawned

theorem managed_new {engine : Engine} (h : Consistent engine.kv ∧ engine.kv.Healthy)
    (timeout concurrency : Nat) : Managed (.new engine timeout concurrency) :=
  ⟨h, fun {_ _} h => (by cases h), fun {_ _} h => (by cases h), fun {_ _} h => (by cases h)⟩

theorem Turned.back (h : Turned handle d d') {k : Nat} {t' : DispatcherTask}
    (ht' : d'.tasks.get k = some t') :
    ∃ t, d.tasks.get k = some t ∧ t'.args = t.args ∧ (t'.running = true → t.running = true) := by
  by_cases hk : k = handle
  · rw [hk] at ht' ⊢
    rcases h.task with heq | ⟨t, st, ht, hst, hrun⟩
    · exact ⟨t', heq ▸ ht', rfl, id⟩
    · rw [ht', Option.some.injEq] at hst
      rw [hst]
      exact ⟨t, ht, rfl, hrun⟩
  · exact ⟨t', (h.others k hk) ▸ ht', rfl, id⟩

theorem Turned.forth (h : Turned handle d d') {k : Nat} {t : DispatcherTask}
    (ht : d.tasks.get k = some t) : ∃ t', d'.tasks.get k = some t' ∧ t'.args = t.args := by
  by_cases hk : k = handle
  · rw [hk] at ht ⊢
    rcases h.task with heq | ⟨u, st, hu, hst, _⟩
    · exact ⟨t, heq.trans ht, rfl⟩
    · rw [ht, Option.some.injEq] at hu
      rw [hu]
      exact ⟨_, hst, rfl⟩
  · exact ⟨t, (h.others k hk).trans ht, rfl⟩

theorem Managed.turned (hm : Managed d) (h : Turned handle d d')
    (hs : Consistent d'.engine.kv ∧ d'.engine.kv.Healthy) : Managed d' := by
  refine ⟨hs, fun {id e} he => ?_, fun {k t'} ht' hrun => ?_, fun {k t'} ht' => ?_⟩
  · rw [h.manager] at he
    obtain ⟨t, ht, hid⟩ := hm.entry he
    obtain ⟨t', ht', hargs⟩ := h.forth ht
    exact ⟨t', ht', by rw [hargs, hid]⟩
  · obtain ⟨t, ht, hargs, hback⟩ := h.back ht'
    rw [h.manager, hargs]
    exact hm.running ht (hback hrun)
  · obtain ⟨t, ht, _⟩ := h.back ht'
    rw [h.spawned]
    exact hm.spawned ht

def held (d : Daemon) (id : Nat) : Option (PushEntry × DispatcherTask) :=
  (d.manager.entries.get id).bind fun e => (d.tasks.get e.handle).map fun t => (e, t)

theorem held_eq_some {id : Nat} {e : PushEntry} {t : DispatcherTask} :
    d.held id = some (e, t) ↔ d.manager.entries.get id = some e ∧ d.tasks.get e.handle = some t := by
  unfold held
  cases d.manager.entries.get id with
  | none => simp
  | some e' =>
    simp only [Option.bind_some, Option.map_eq_some_iff, Prod.mk.injEq, Option.some.injEq]
    constructor
    · rintro ⟨t', ht', rfl, rfl⟩
      exact ⟨rfl, ht'⟩
    · rintro ⟨rfl, ht⟩
      exact ⟨t, ht, rfl, rfl⟩

theorem Managed.held_eq_none (hm : Managed d) {id : Nat} :
    d.held id = none ↔ d.manager.entries.get id = none := by
  unfold held
  cases he : d.manager.entries.get id with
  | none => simp
  | some e =>
    obtain ⟨t, ht, _⟩ := hm.entry he
    simp [ht]

theorem Managed.subId (hm : Managed d) {id : Nat} {e : PushEntry} {t : DispatcherTask}
    (h : d.held id = some (e, t)) : t.args.subId = id := by
  obtain ⟨he, ht⟩ := held_eq_some.mp h
  obtain ⟨u, hu, hid⟩ := hm.entry he
  rw [ht, Option.some.injEq] at hu
  rw [hu, hid]

/-- Only the entries of the given subscriptions changed, with their tasks. -/
structure Reshaped (ids : Nat → Prop) (d d' : Daemon) : Prop where
  managed : Managed d'
  store : KeptStore d.engine d'.engine
  held : ∀ j, ¬ ids j → d'.held j = d.held j

theorem Reshaped.refl (hm : Managed d) (ids : Nat → Prop) : Reshaped ids d d :=
  ⟨hm, .refl _, fun _ _ => rfl⟩

theorem Reshaped.trans {ids ids' : Nat → Prop} (h : Reshaped ids d d')
    (h' : Reshaped ids' d' d'') : Reshaped (fun j => ids j ∨ ids' j) d d'' :=
  ⟨h'.managed, h.store.trans h'.store, fun j hj =>
    (h'.held j fun hk => hj (Or.inr hk)).trans (h.held j fun hk => hj (Or.inl hk))⟩

theorem Reshaped.mono {ids ids' : Nat → Prop} (h : Reshaped ids d d')
    (hle : ∀ j, ids j → ids' j) : Reshaped ids' d d' :=
  ⟨h.managed, h.store, fun j hj => h.held j fun hk => hj (hle j hk)⟩

theorem stopEntry_reshaped (hm : Managed d) (nowMs : Int) (id : Nat) :
    Reshaped (· = id) d (d.stopEntry nowMs id) ∧ (d.stopEntry nowMs id).held id = none := by
  unfold stopEntry
  cases he : d.manager.entries.get id with
  | none => exact ⟨.refl hm _, hm.held_eq_none.mpr he⟩
  | some entry =>
    obtain ⟨hturn, hkept, hended⟩ := stop_turned
      (d.setEntries (d.manager.entries.erase id)) nowMs entry.handle
    obtain ⟨own, hown, hownId⟩ := hm.entry he
    dsimp only
    generalize (d.setEntries (d.manager.entries.erase id)).stop nowMs entry.handle = d' at *
    have hentries : ∀ j, d'.manager.entries.get j =
        if j = id then none else d.manager.entries.get j := by
      intro j
      rw [hturn.manager]
      exact SortedMap.get_erase _ _ _
    have hgone : d'.manager.entries.get id = none := by rw [hentries, if_pos rfl]
    have hm' : Managed d' := by
      refine ⟨hkept.sound hm.sound, fun {j e} hj => ?_, fun {k t'} ht' hrun => ?_,
        fun {k t'} ht' => ?_⟩
      · rw [hentries] at hj
        split_ifs at hj
        obtain ⟨t, ht, hid⟩ := hm.entry hj
        obtain ⟨t', ht', hargs⟩ := hturn.forth ht
        exact ⟨t', ht', by rw [hargs, hid]⟩
      · obtain ⟨t, ht, hargs, hback⟩ := hturn.back ht'
        obtain ⟨e, hheld, hk⟩ := hm.running ht (hback hrun)
        rw [hargs, hentries]
        split_ifs with hid
        · rw [hid, he, Option.some.injEq] at hheld
          rw [← hk, ← hheld] at ht'
          rw [hended t' ht'] at hrun
          cases hrun
        · exact ⟨e, hheld, hk⟩
      · obtain ⟨t, ht, _⟩ := hturn.back ht'
        rw [hturn.spawned]
        exact hm.spawned ht
    refine ⟨⟨hm', hkept, fun j hj => ?_⟩, hm'.held_eq_none.mpr hgone⟩
    unfold held
    rw [hentries, if_neg hj]
    cases hje : d.manager.entries.get j with
    | none => rfl
    | some e =>
      have hne : e.handle ≠ entry.handle := by
        intro heq
        obtain ⟨t, ht, hid⟩ := hm.entry hje
        rw [heq, hown, Option.some.injEq] at ht
        rw [← ht, hownId] at hid
        exact hj hid.symm
      have htask := hturn.others e.handle hne
      simp only [Option.bind_some, htask]
      rfl

theorem startEntry_reshaped (hm : Managed d) {sub : SubscriptionRecord}
    (hnone : d.held sub.id = none) :
    Reshaped (· = sub.id) d (d.startEntry sub) ∧ (d.startEntry sub).held sub.id =
      sub.pushConfig.map fun cfg => (⟨cfg, d.spawned + 1⟩, ⟨d.args sub cfg, .starting⟩) := by
  have hentry := hm.held_eq_none.mp hnone
  unfold startEntry
  cases hcfg : sub.pushConfig with
  | none => exact ⟨.refl hm _, hnone⟩
  | some cfg =>
    have hentries : ∀ j, ((d.spawn (d.args sub cfg)).setEntries
        (d.manager.entries.insert sub.id ⟨cfg, d.spawned + 1⟩)).manager.entries.get j =
          if j = sub.id then some ⟨cfg, d.spawned + 1⟩ else d.manager.entries.get j :=
      fun j => SortedMap.get_insert _ _ _ _
    have htasks : ∀ k, ((d.spawn (d.args sub cfg)).setEntries
        (d.manager.entries.insert sub.id ⟨cfg, d.spawned + 1⟩)).tasks.get k =
          if k = d.spawned + 1 then some ⟨d.args sub cfg, .starting⟩ else d.tasks.get k :=
      fun k => SortedMap.get_insert _ _ _ _
    have hold : ∀ {k t}, d.tasks.get k = some t → k ≠ d.spawned + 1 := by
      intro k t ht
      have := hm.spawned ht
      omega
    dsimp only
    have hspawned : ((d.spawn (d.args sub cfg)).setEntries
        (d.manager.entries.insert sub.id ⟨cfg, d.spawned + 1⟩)).spawned = d.spawned + 1 := rfl
    have hengine : ((d.spawn (d.args sub cfg)).setEntries
        (d.manager.entries.insert sub.id ⟨cfg, d.spawned + 1⟩)).engine = d.engine := rfl
    generalize (d.spawn (d.args sub cfg)).setEntries
      (d.manager.entries.insert sub.id ⟨cfg, d.spawned + 1⟩) = d' at *
    have hm' : Managed d' := by
      refine ⟨hengine ▸ hm.sound, fun {j e} hj => ?_, fun {k t'} ht' hrun => ?_,
        fun {k t'} ht' => ?_⟩
      · rw [hentries] at hj
        split_ifs at hj with hid
        · cases hj
          exact ⟨_, by rw [htasks, if_pos rfl], hid.symm⟩
        · obtain ⟨t, ht, hsub⟩ := hm.entry hj
          exact ⟨t, by rw [htasks, if_neg (hold ht), ht], hsub⟩
      · rw [htasks] at ht'
        split_ifs at ht' with hk
        · cases ht'
          refine ⟨⟨cfg, d.spawned + 1⟩, ?_, hk.symm⟩
          rw [hentries]
          exact if_pos rfl
        · obtain ⟨e, he, hk'⟩ := hm.running ht' hrun
          have hne : t'.args.subId ≠ sub.id := by
            intro heq
            rw [heq, hentry] at he
            cases he
          exact ⟨e, by rw [hentries, if_neg hne, he], hk'⟩
      · rw [htasks] at ht'
        split_ifs at ht' with hk
        · omega
        · have := hm.spawned ht'
          omega
    refine ⟨⟨hm', hengine ▸ .refl _, fun j hj => ?_⟩, ?_⟩
    · unfold held
      rw [hentries, if_neg hj]
      cases hje : d.manager.entries.get j with
      | none => rfl
      | some e =>
        obtain ⟨t, ht, _⟩ := hm.entry hje
        simp only [Option.bind_some, htasks, if_neg (hold ht)]
    · refine held_eq_some.mpr ⟨by rw [hentries, if_pos rfl], ?_⟩
      rw [htasks, if_pos rfl]

/-- The task was started with the settings that the record has. -/
structure StartedWith (args : DispatcherArgs) (r : SubscriptionRecord) (cfg : PushConfig) : Prop
    where
  pushConfig : args.pushConfig = cfg
  ackDeadline : args.ackDeadlineSecs = r.ackDeadlineSecs
  minBackoff : args.minRetryBackoffSecs = r.minRetryBackoffSecs
  maxBackoff : args.maxRetryBackoffSecs = r.maxRetryBackoffSecs
  deadLetter : args.deadLetterConfigured = r.deadLetterTopic.isSome

theorem startedWith_args (d : Daemon) (r : SubscriptionRecord) (cfg : PushConfig) :
    StartedWith (d.args r cfg) r cfg :=
  ⟨rfl, rfl, rfl, rfl, rfl⟩

/-- What one turn of the loop makes of the entry of a subscription: one with the push
config of the record stays, whatever became of its task. -/
structure Renewed (r : SubscriptionRecord) (was now : Option (PushEntry × DispatcherTask)) : Prop
    where
  none : r.pushConfig = none → now = none
  kept : ∀ {e t}, was = some (e, t) → r.pushConfig = some e.pushConfig → now = was
  started : ∀ {cfg}, r.pushConfig = some cfg → (∀ e t, was = some (e, t) → e.pushConfig ≠ cfg) →
    ∃ e t, now = some (e, t) ∧ e.pushConfig = cfg ∧ t.running = true ∧ StartedWith t.args r cfg

theorem Managed.needsRestart_iff (hm : Managed d) {r : SubscriptionRecord} :
    d.needsRestart r = false ↔
      (d.held r.id).map (fun x => x.1.pushConfig) = r.pushConfig := by
  have hheld : (d.held r.id).map (fun x => x.1.pushConfig) =
      (d.manager.entries.get r.id).map PushEntry.pushConfig := by
    unfold held
    cases he : d.manager.entries.get r.id with
    | none => rfl
    | some e =>
      obtain ⟨t, ht, _⟩ := hm.entry he
      simp [ht]
  rw [hheld]
  unfold needsRestart
  cases r.pushConfig with
  | none => cases d.manager.entries.get r.id <;> simp
  | some cfg => cases d.manager.entries.get r.id <;> simp

theorem reconcileOne_reshaped (hm : Managed d) (nowMs : Int) (r : SubscriptionRecord) :
    Reshaped (· = r.id) d (d.reconcileOne nowMs r) ∧
      Renewed r (d.held r.id) ((d.reconcileOne nowMs r).held r.id) := by
  unfold reconcileOne
  cases hneeds : d.needsRestart r with
  | false =>
    have hsame := hm.needsRestart_iff.mp hneeds
    refine ⟨.refl hm _, fun hnone => ?_, fun _ _ => rfl, fun {cfg} hcfg hother => ?_⟩
    · rw [hnone, Option.map_eq_none_iff] at hsame
      exact hsame
    · rw [hcfg] at hsame
      obtain ⟨⟨e, t⟩, ht, he⟩ := Option.map_eq_some_iff.mp hsame
      exact absurd he (hother e t ht)
  | true =>
    obtain ⟨hstop, hnone⟩ := stopEntry_reshaped hm nowMs r.id
    obtain ⟨hstart, hheld⟩ := startEntry_reshaped hstop.managed hnone
    refine ⟨(hstop.trans hstart).mono fun _ h => h.elim id id, fun hnone => ?_, fun ht hcfg => ?_,
      fun hcfg _ => ?_⟩
    · rw [if_pos rfl, hheld, hnone]
      rfl
    · have hsame : d.needsRestart r = false := by
        rw [hm.needsRestart_iff, ht, hcfg]
        rfl
      rw [hneeds] at hsame
      cases hsame
    · rw [if_pos rfl, hheld, hcfg]
      exact ⟨_, _, rfl, rfl, rfl, startedWith_args _ r _⟩

theorem reconcileAll_reshaped (hm : Managed d) (nowMs : Int) {rs : List SubscriptionRecord}
    (hids : (rs.map SubscriptionRecord.id).Nodup) :
    Reshaped (· ∈ rs.map SubscriptionRecord.id) d (d.reconcileAll nowMs rs) ∧
      ∀ r ∈ rs, Renewed r (d.held r.id) ((d.reconcileAll nowMs rs).held r.id) := by
  induction rs generalizing d with
  | nil => exact ⟨.refl hm _, fun r hr => by cases hr⟩
  | cons r rs ih =>
    obtain ⟨hnot, hnodup⟩ := List.nodup_cons.mp hids
    obtain ⟨hone, hrenewed⟩ := reconcileOne_reshaped hm nowMs r
    obtain ⟨hrest, hall⟩ := ih hone.managed hnodup
    refine ⟨(hone.trans hrest).mono fun j hj => ?_, fun x hx => ?_⟩
    · rcases hj with rfl | hj
      · exact List.mem_cons_self
      · exact List.mem_cons_of_mem _ hj
    · rcases List.mem_cons.mp hx with rfl | hx
      · rw [reconcileAll, hrest.held _ hnot]
        exact hrenewed
      · have hne : x.id ≠ r.id := fun h => hnot (h ▸ List.mem_map_of_mem hx)
        rw [← hone.held _ hne]
        exact hall x hx

theorem stopEntries_reshaped (hm : Managed d) (nowMs : Int) (ids : List Nat) :
    Reshaped (· ∈ ids) d (d.stopEntries nowMs ids) ∧
      ∀ id ∈ ids, (d.stopEntries nowMs ids).held id = none := by
  induction ids generalizing d with
  | nil => exact ⟨.refl hm _, fun id h => by cases h⟩
  | cons i ids ih =>
    obtain ⟨hstop, hnone⟩ := stopEntry_reshaped hm nowMs i
    obtain ⟨hrest, hall⟩ := ih hstop.managed
    refine ⟨(hstop.trans hrest).mono fun j hj => ?_, fun j hj => ?_⟩
    · rcases hj with rfl | hj
      · exact List.mem_cons_self
      · exact List.mem_cons_of_mem _ hj
    · by_cases hmem : j ∈ ids
      · exact hall j hmem
      · rcases List.mem_cons.mp hj with rfl | hj
        · exact (hrest.held _ hmem).trans hnone
        · exact absurd hj hmem

theorem Managed.listAll (hm : Managed d) {r : SubscriptionRecord} :
    r ∈ SubscriptionStore.listAll d.engine.kv ↔ d.engine.kv.subs.get r.id = some r := by
  constructor
  · intro h
    obtain ⟨⟨id, r'⟩, hmem, rfl⟩ := List.mem_map.mp h
    have hr := SortedMap.mem_entries.mp hmem
    have hid := (hm.sound.1.subs.record hr).2
    exact hid ▸ hr
  · intro h
    exact List.mem_map.mpr ⟨(r.id, r), SortedMap.mem_entries.mpr h, rfl⟩

theorem Managed.listAll_nodup (hm : Managed d) :
    ((SubscriptionStore.listAll d.engine.kv).map SubscriptionRecord.id).Nodup := by
  have hkeys : (SubscriptionStore.listAll d.engine.kv).map SubscriptionRecord.id =
      d.engine.kv.subs.keys := by
    rw [SubscriptionStore.listAll, SortedMap.keys, List.map_map]
    refine List.map_congr_left fun x hx => ?_
    have hx' : d.engine.kv.subs.get x.1 = some x.2 := SortedMap.mem_entries.mp hx
    exact (hm.sound.1.subs.record hx').2
  rw [hkeys]
  exact SortedMap.keys_nodup _

/-- What a pass makes of every entry. -/
structure Passed (d d' : Daemon) : Prop where
  managed : Managed d'
  store : KeptStore d.engine d'.engine
  recorded : ∀ {id r}, d.engine.kv.subs.get id = some r → Renewed r (d.held id) (d'.held id)
  unrecorded : ∀ {id}, d.engine.kv.subs.get id = none → d'.held id = none

theorem reconcile_passed (hm : Managed d) (nowMs : Int) : Passed d (d.reconcile nowMs) := by
  obtain ⟨hall, hrenewed⟩ := reconcileAll_reshaped hm nowMs hm.listAll_nodup
  unfold reconcile
  dsimp only
  generalize d.reconcileAll nowMs (SubscriptionStore.listAll d.engine.kv) = d₁ at *
  obtain ⟨hstop, hgone⟩ := stopEntries_reshaped hall.managed nowMs
    (d₁.stale (SubscriptionStore.listAll d.engine.kv))
  have hstale : ∀ id, id ∈ d₁.stale (SubscriptionStore.listAll d.engine.kv) ↔
      d₁.held id ≠ none ∧ d.engine.kv.subs.get id = none := by
    intro id
    have hids : id ∈ (SubscriptionStore.listAll d.engine.kv).map SubscriptionRecord.id ↔
        d.engine.kv.subs.get id ≠ none := by
      rw [Option.ne_none_iff_exists', List.mem_map]
      constructor
      · rintro ⟨r, hr, rfl⟩
        exact ⟨r, hm.listAll.mp hr⟩
      · rintro ⟨r, hr⟩
        have hid := (hm.sound.1.subs.record hr).2
        exact ⟨r, hm.listAll.mpr (hid.symm ▸ hr), hid⟩
    have hentry : id ∈ d₁.manager.entries.keys ↔ d₁.held id ≠ none := by
      rw [SortedMap.mem_keys, ne_eq, hall.managed.held_eq_none, ← ne_eq,
        Option.ne_none_iff_exists']
    simp only [stale, List.mem_filter, decide_eq_true_eq, hentry, hids, not_not]
  refine ⟨hstop.managed, hall.store.trans hstop.store, fun {id r} hr => ?_, fun {id} hnone => ?_⟩
  · have hid := (hm.sound.1.subs.record hr).2
    have hlive : id ∉ d₁.stale (SubscriptionStore.listAll d.engine.kv) := by
      intro h
      rw [((hstale id).mp h).2] at hr
      cases hr
    rw [hstop.held _ hlive, ← hid]
    exact hrenewed r (hm.listAll.mpr (hid.symm ▸ hr))
  · by_cases hmem : id ∈ d₁.stale (SubscriptionStore.listAll d.engine.kv)
    · exact hgone id hmem
    · have hheld : d₁.held id = none := by
        by_contra hne
        exact hmem ((hstale id).mpr ⟨hne, hnone⟩)
      exact (hstop.held _ hmem).trans hheld

theorem Passed.settled (h : Passed d d') (nowMs : Int) : d'.reconcile nowMs = d' := by
  have hm := h.managed
  have hsubs := h.store.subs
  have hneeds : ∀ r ∈ SubscriptionStore.listAll d'.engine.kv, d'.needsRestart r = false := by
    intro r hr
    have hstored := hm.listAll.mp hr
    rw [hsubs] at hstored
    have hrenewed := h.recorded hstored
    rw [hm.needsRestart_iff]
    cases hcfg : r.pushConfig with
    | none => rw [hrenewed.none hcfg, Option.map_none]
    | some cfg =>
      by_cases hsame : ∃ e t, d.held r.id = some (e, t) ∧ e.pushConfig = cfg
      · obtain ⟨e, t, ht, rfl⟩ := hsame
        rw [hrenewed.kept ht hcfg, ht, Option.map_some]
      · obtain ⟨e, t, ht, he, _⟩ := hrenewed.started hcfg fun e t ht he => hsame ⟨e, t, ht, he⟩
        rw [ht, Option.map_some, he]
  have hall : ∀ rs : List SubscriptionRecord, (∀ r ∈ rs, d'.needsRestart r = false) →
      d'.reconcileAll nowMs rs = d' := by
    intro rs hrs
    induction rs with
    | nil => rfl
    | cons r rs ih =>
      have hone : d'.reconcileOne nowMs r = d' := by
        rw [reconcileOne, hrs r List.mem_cons_self]
        rfl
      rw [reconcileAll, hone]
      exact ih fun x hx => hrs x (List.mem_cons_of_mem _ hx)
  have hstale : d'.stale (SubscriptionStore.listAll d'.engine.kv) = [] := by
    refine List.filter_eq_nil_iff.mpr fun id hid => ?_
    obtain ⟨e, he⟩ := SortedMap.mem_keys.mp hid
    cases hr : d.engine.kv.subs.get id with
    | none =>
      rw [hm.held_eq_none.mp (h.unrecorded hr)] at he
      cases he
    | some r =>
      rw [← hsubs] at hr
      have hrid := (hm.sound.1.subs.record hr).2
      have hmem : r ∈ SubscriptionStore.listAll d'.engine.kv := hm.listAll.mpr (hrid.symm ▸ hr)
      simp only [decide_not, Bool.not_eq_true', decide_eq_false_iff_not, not_not]
      exact hrid ▸ List.mem_map_of_mem hmem
  unfold reconcile
  dsimp only
  rw [hall _ hneeds, hstale]
  rfl

/-- The subscription has a push config and is not detached. -/
structure Declares (d : Daemon) (id : Nat) (r : SubscriptionRecord) (cfg : PushConfig) : Prop
    where
  stored : d.engine.kv.subs.get id = some r
  push : r.pushConfig = some cfg
  attached : r.detached = false

/-- The manager holds one running dispatcher for each subscription that declares one, with
the settings it has now, and none for any other. -/
structure Reconciled (d : Daemon) : Prop where
  declared : ∀ {id r cfg}, d.Declares id r cfg → ∃ e t, d.manager.entries.get id = some e ∧
    d.tasks.get e.handle = some t ∧ t.running = true ∧ t.args.subId = id ∧
    StartedWith t.args r cfg ∧
    ∀ h u, d.tasks.get h = some u → u.running = true → u.args.subId = id → h = e.handle
  others : ∀ {id}, (∀ r cfg, ¬ d.Declares id r cfg) → d.manager.entries.get id = none ∧
    ∀ h u, d.tasks.get h = some u → u.args.subId = id → u.running = false

theorem Managed.reconciled_iff (hm : Managed d) : d.Reconciled ↔
    (∀ id r cfg, d.Declares id r cfg → ∃ e t, d.held id = some (e, t) ∧ t.running = true ∧
      StartedWith t.args r cfg) ∧
    ∀ id, (∀ r cfg, ¬ d.Declares id r cfg) → d.held id = none := by
  constructor
  · intro h
    refine ⟨fun id r cfg hd => ?_, fun id hd => hm.held_eq_none.mpr (h.others hd).1⟩
    obtain ⟨e, t, he, ht, hrun, _, hstart, _⟩ := h.declared hd
    exact ⟨e, t, held_eq_some.mpr ⟨he, ht⟩, hrun, hstart⟩
  · rintro ⟨hdeclared, hothers⟩
    refine ⟨fun {id r cfg} hd => ?_, fun {id} hd => ?_⟩
    · obtain ⟨e, t, hheld, hrun, hstart⟩ := hdeclared id r cfg hd
      obtain ⟨he, ht⟩ := held_eq_some.mp hheld
      refine ⟨e, t, he, ht, hrun, hm.subId hheld, hstart, fun h u hu hurun hid => ?_⟩
      obtain ⟨e', he', hh⟩ := hm.running hu hurun
      rw [hid, he, Option.some.injEq] at he'
      rw [← hh, he']
    · have hnone := hm.held_eq_none.mp (hothers id hd)
      refine ⟨hnone, fun h u hu hid => ?_⟩
      by_contra hrun
      obtain ⟨e, he, _⟩ := hm.running hu (by simpa using hrun)
      rw [hid, hnone] at he
      cases he

/-- No push subscription is detached, and each dispatcher that was started with the push
config its subscription still has runs, with the other settings unchanged as well. -/
def InStep (d : Daemon) : Prop :=
  ∀ id r cfg, d.engine.kv.subs.get id = some r → r.pushConfig = some cfg → r.detached = false ∧
    ∀ e t, d.held id = some (e, t) → e.pushConfig = cfg →
      t.running = true ∧ StartedWith t.args r cfg

theorem Passed.reconciled_iff (h : Passed d d') : d'.Reconciled ↔ d.InStep := by
  have hdeclares : ∀ id r cfg, d'.Declares id r cfg ↔ d.Declares id r cfg := by
    intro id r cfg
    have hsubs := h.store.subs
    exact ⟨fun hd => ⟨hsubs ▸ hd.stored, hd.push, hd.attached⟩,
      fun hd => ⟨hsubs.symm ▸ hd.stored, hd.push, hd.attached⟩⟩
  simp only [h.managed.reconciled_iff, hdeclares]
  constructor
  · rintro ⟨hdeclared, hothers⟩ id r cfg hr hcfg
    have hrenewed := h.recorded hr
    have hattached : r.detached = false := by
      by_contra hdet
      have hnone := hothers id fun r' cfg' hd => by
        have hsame := hd.stored
        rw [hr, Option.some.injEq] at hsame
        exact hdet (hsame ▸ hd.attached)
      by_cases hsame : ∃ e t, d.held id = some (e, t) ∧ e.pushConfig = cfg
      · obtain ⟨e, t, ht, rfl⟩ := hsame
        rw [hrenewed.kept ht hcfg, ht] at hnone
        cases hnone
      · obtain ⟨e, t, ht, _⟩ := hrenewed.started hcfg fun e t ht he => hsame ⟨e, t, ht, he⟩
        rw [ht] at hnone
        cases hnone
    refine ⟨hattached, fun e t ht he => ?_⟩
    obtain ⟨e', t', ht', hrun, hstart⟩ := hdeclared id r cfg ⟨hr, hcfg, hattached⟩
    rw [hrenewed.kept ht (he ▸ hcfg), ht, Option.some.injEq, Prod.mk.injEq] at ht'
    rw [ht'.2]
    exact ⟨hrun, hstart⟩
  · intro hstep
    refine ⟨fun id r cfg hd => ?_, fun id hd => ?_⟩
    · obtain ⟨_, hkept⟩ := hstep id r cfg hd.stored hd.push
      have hrenewed := h.recorded hd.stored
      by_cases hsame : ∃ e t, d.held id = some (e, t) ∧ e.pushConfig = cfg
      · obtain ⟨e, t, ht, he⟩ := hsame
        obtain ⟨hrun, hstart⟩ := hkept e t ht he
        exact ⟨e, t, (hrenewed.kept ht (he ▸ hd.push)).trans ht, hrun, hstart⟩
      · obtain ⟨e, t, ht, _, hrun, hstart⟩ :=
          hrenewed.started hd.push fun e t ht he => hsame ⟨e, t, ht, he⟩
        exact ⟨e, t, ht, hrun, hstart⟩
    · cases hr : d.engine.kv.subs.get id with
      | none => exact h.unrecorded hr
      | some r =>
        refine (h.recorded hr).none ?_
        cases hcfg : r.pushConfig with
        | none => rfl
        | some cfg => exact absurd ⟨hr, hcfg, (hstep id r cfg hr hcfg).1⟩ (hd r cfg)

end Daemon

section Histories

open Daemon

variable {d : Daemon}

theorem managed_step (hm : Managed d) (i : DaemonInput) : Managed (daemonStep d i).2 := by
  have hcall : ∀ op, Managed { d with engine := (step d.engine ⟨i.nowMs, op⟩).2 } := fun op =>
    ⟨step_sound _ hm.sound, hm.entry, hm.running, hm.spawned⟩
  unfold daemonStep
  cases hop : i.op with
  | call op =>
    cases op with
    | restart => exact managed_new (step_sound _ hm.sound) _ _
    | _ => exact hcall _
  | poll handle =>
    obtain ⟨hturn, hsound⟩ := poll_turned d i.nowMs handle
    exact hm.turned hturn (hsound hm.sound)
  | panic handle =>
    obtain ⟨hturn, hengine⟩ := panicked_turned d handle
    exact hm.turned hturn (hengine ▸ hm.sound)
  | reconcile => exact (reconcile_passed hm i.nowMs).managed
  | shutdown => exact (stopEntries_reshaped hm i.nowMs _).1.managed

theorem managed_final (timeout concurrency : Nat) (is : List DaemonInput) :
    Managed (Run.final daemonStep (daemonStart timeout concurrency) is) :=
  Run.inv_final (C := fun _ => True) (P := Managed) (fun _ i h _ => managed_step h i)
    (managed_new ⟨consistent_empty, fun _ => rfl⟩ _ _) fun _ _ => trivial

/-- After every history, a pass leaves what the subscriptions declare exactly when no
push subscription is detached and every dispatcher that was started with the push config
its subscription still has runs, with the other settings unchanged; and a second pass
changes nothing. -/
theorem reconcile_reaches_declared_iff (timeout concurrency : Nat) (is : List DaemonInput)
    (nowMs later : Int) :
    let d := Run.final daemonStep (daemonStart timeout concurrency) is
    ((d.reconcile nowMs).Reconciled ↔ d.InStep) ∧
      (d.reconcile nowMs).reconcile later = d.reconcile nowMs := by
  intro d
  have hpassed := reconcile_passed (managed_final timeout concurrency is) nowMs
  exact ⟨hpassed.reconciled_iff, hpassed.settled later⟩

def badTopicPush : CreateSubscriptionOptions :=
  { badTopicOptions with pushConfig := some ⟨"http://localhost:8080/push", false, false⟩ }

def called (i : Input) : DaemonInput := ⟨i.nowMs, .call i.op⟩

/-- The dispatcher of `subA` opens its stream, and ends when its lease fails; then the
dead-letter topic that made it fail is taken off the subscription. -/
def endedDispatcher : List DaemonInput :=
  (setup badTopicPush ++
    [pullA 0, pullA 20000, pullA 40000, pullA 60000, pullA 80000]).map called ++
  [⟨100000, .reconcile⟩, ⟨100000, .poll 1⟩, ⟨100000, .poll 1⟩,
    called ⟨101000, .updateSubscription "projects/p/subscriptions/subA"
      { deadLetterTopic := some none }⟩]

/-- A push subscription whose dispatcher does not run any more. -/
def notServed (d : Daemon) (id : Nat) : Bool :=
  match d.engine.kv.subs.get id, d.held id with
  | some r, some (_, t) => r.pushConfig.isSome && !r.detached && !t.running
  | _, _ => false

theorem not_reconciled_of_notServed {id : Nat} (h : notServed d id = true) : ¬ d.Reconciled := by
  intro hrec
  unfold notServed at h
  cases hr : d.engine.kv.subs.get id with
  | none =>
    rw [hr] at h
    cases h
  | some r =>
    cases hheld : d.held id with
    | none =>
      rw [hr, hheld] at h
      cases h
    | some x =>
      obtain ⟨e, t⟩ := x
      simp only [hr, hheld, Bool.and_eq_true, Bool.not_eq_true'] at h
      obtain ⟨⟨hpush, hatt⟩, hrun⟩ := h
      obtain ⟨cfg, hcfg⟩ := Option.isSome_iff_exists.mp hpush
      obtain ⟨he, ht⟩ := held_eq_some.mp hheld
      obtain ⟨e', t', he', ht', hrun', _⟩ := hrec.declared ⟨hr, hcfg, hatt⟩
      rw [he, Option.some.injEq] at he'
      rw [← he', ht, Option.some.injEq] at ht'
      rw [← ht', hrun] at hrun'
      cases hrun'

/-- No pass starts a dispatcher again that ended on its own. -/
theorem reconcile_misses_ended : ¬ ∀ (timeout concurrency : Nat) (is : List DaemonInput)
    (nowMs later : Int),
    let d := Run.final daemonStep (daemonStart timeout concurrency) is
    (d.reconcile nowMs).Reconciled ∧
      (d.reconcile nowMs).reconcile later = d.reconcile nowMs := by
  intro h
  have hended : notServed ((Run.final daemonStep (daemonStart 30 10) endedDispatcher).reconcile
      103000) 2 = true := by
    decide +kernel
  exact not_reconciled_of_notServed hended (h 30 10 endedDispatcher 103000 0).1

end Histories

end OpenPubusb
