import OpenPubusb.SubscriptionProto

/-! Updates of subscriptions under field masks: how they compose, and what a client may do
with a record that it has read. -/

namespace OpenPubusb

open Hoare

section Patches

theorem masked_some {α : Type} {paths : List String} {path : String} {v : Option α} {P : α → Prop} :
    (∀ x, masked paths path v = some x → P x) ↔ path ∈ paths → ∀ x, v = some x → P x := by
  unfold masked
  by_cases h : path ∈ paths <;> simp [h]

theorem checkPatch_iff {patch : SubscriptionUpdatePatch} :
    SubscriptionStore.checkPatch patch = .ok () ↔
      (∀ v, patch.ackDeadlineSecs = some v → validateAckDeadlineSecs v = .ok ()) ∧
      (∀ v, patch.messageRetentionSecs = some v → validateSubscriptionRetentionSecs v = .ok ()) ∧
      (∀ v, patch.maxDeliveryAttempts = some v → validateDeadLetterMaxAttempts v = .ok ()) ∧
      (∀ v, patch.minRetryBackoffSecs = some v → validateRetryBackoffSecs v = .ok ()) ∧
      ∀ v, patch.maxRetryBackoffSecs = some v → validateRetryBackoffSecs v = .ok () := by
  simp only [SubscriptionStore.checkPatch, bind_eq_ok, optValidate_eq_ok]
  simp

end Patches

section Updates

/-- The store with the record written back under its id. -/
def Engine.rewritten (s : Engine) (r : SubscriptionRecord) (writes : Nat) : Engine :=
  { s with kv := { s.kv with subs := s.kv.subs.insert r.id r, writes := writes } }

/-- The name stands for the record, and writes succeed. -/
structure Named (s : Engine) (name : String) (r : SubscriptionRecord) : Prop where
  named : s.kv.subNames.get name = some r.id
  row : s.kv.subs.get r.id = some r
  name_eq : r.name = name
  healthy : s.kv.Healthy

variable {s : Engine} {name : String} {r : SubscriptionRecord}

theorem Named.get (h : Named s name r) : SubscriptionStore.get s.kv name = .ok r := by
  unfold SubscriptionStore.get SubscriptionStore.load
  rw [h.named]
  simp only
  rw [h.row]

theorem named_of_get (hc : Consistent s.kv) (hh : s.kv.Healthy)
    (h : SubscriptionStore.get s.kv name = .ok r) : Named s name r := by
  obtain ⟨id, hn, hs⟩ := get_eq_ok h
  have hid : r.id = id := (hc.subs.record hs).2
  exact ⟨hid ▸ hn, hid ▸ hs, hc.subs.name_eq hn hs, hh⟩

theorem Named.rewritten (h : Named s name r) (r' : SubscriptionRecord) (hid : r'.id = r.id)
    (hname : r'.name = r.name) (w : Nat) : Named (s.rewritten r' w) name r' where
  named := by rw [hid]; exact h.named
  row := SortedMap.get_insert_self _ _ _
  name_eq := hname.trans h.name_eq
  healthy := h.healthy

theorem Named.update (h : Named s name r) {patch : SubscriptionUpdatePatch}
    (hpatch : SubscriptionStore.checkPatch patch = .ok ()) :
    PubSubService.updateSubscription name patch s = .ok (SubscriptionStore.patched r patch)
      (s.rewritten (SubscriptionStore.patched r patch) (s.kv.writes + 2)) := by
  have hnames : s.kv.subNames.insert r.name r.id = s.kv.subNames := by
    refine SortedMap.ext_get fun n => ?_
    rw [SortedMap.get_insert]
    split_ifs with hn
    · rw [hn, h.name_eq, h.named]
    · rfl
  have hh := h.healthy
  refine Ensures.run_eq ?_
  simp only [PubSubService.updateSubscription, onKv, ensures_focus, SubscriptionStore.update,
    SubscriptionStore.persist, putSub, putSubName, ensures_bind, ensures_estateGet,
    ensures_liftResult, ensures_pure, h.get, hpatch]
  refine ⟨fun r₀ hr₀ => ?_, fun e he => by cases he⟩
  cases hr₀
  refine ⟨fun _ _ => ?_, fun e he => by cases he⟩
  refine (ensures_kvWrite_healthy hh).mpr ((ensures_kvWrite_healthy ?_).mpr ?_)
  · exact fun n => hh n
  rw [EStateM.Result.ok.injEq]
  refine ⟨rfl, ?_⟩
  change _ = { s with kv := { s.kv with
    subs := s.kv.subs.insert r.id (SubscriptionStore.patched r patch)
    subNames := s.kv.subNames.insert r.name r.id
    writes := s.kv.writes + 2 } }
  rw [hnames]
  rfl

/-- What the request does when it is accepted. -/
structure Updated (s : Engine) (sub : Proto.Subscription) (paths : List String)
    (r : SubscriptionRecord) : Prop where
  mutable : ∀ path ∈ immutablePaths, path ∉ paths
  checked : SubscriptionStore.checkPatch (patchFromMask sub paths) = .ok ()
  named : Named s sub.name r

def Engine.updated (s : Engine) (sub : Proto.Subscription) (paths : List String)
    (r : SubscriptionRecord) : Engine :=
  s.rewritten (SubscriptionStore.patched r (patchFromMask sub paths)) (s.kv.writes + 2)

variable {sub : Proto.Subscription} {paths : List String} {x : Proto.Subscription} {t : Engine}

theorem Updated.run (h : Updated s sub paths r) :
    SubscriberService.updateSubscription ⟨some sub, some paths⟩ s =
      .ok (subscriptionToProto (SubscriptionStore.patched r (patchFromMask sub paths)))
        (s.updated sub paths r) := by
  have hfind : immutablePaths.find? (fun path => path ∈ paths) = none := by
    simpa using h.mutable
  simp only [SubscriberService.updateSubscription, Option.getD_some]
  rw [hfind]
  have hrun := mapErr_ok (h.named.update h.checked)
  simp only [bind, EStateM.bind, hrun]
  rfl

theorem Updated.of_ok (h : Updated s sub paths r)
    (hrun : SubscriberService.updateSubscription ⟨some sub, some paths⟩ s = .ok x t) :
    x = subscriptionToProto (SubscriptionStore.patched r (patchFromMask sub paths)) ∧
      t = s.updated sub paths r := by
  rw [h.run] at hrun
  cases hrun
  exact ⟨rfl, rfl⟩

theorem Updated.renamed (h : Updated s sub paths r) : Named (s.updated sub paths r) sub.name
    (SubscriptionStore.patched r (patchFromMask sub paths)) := by
  exact h.named.rewritten (SubscriptionStore.patched r (patchFromMask sub paths)) rfl rfl _

def Engine.uncounted (s : Engine) : Engine := { s with kv := { s.kv with writes := 0 } }

end Updates

section Composition

variable {s : Engine} {sub sub' : Proto.Subscription} {paths paths' : List String}

/-- A request that leaves every setting to its default. -/
def plainSubscription : Proto.Subscription :=
  { name := "projects/p/subscriptions/subA", topic := "projects/p/topics/top1", pushConfig := none,
    hasBigqueryConfig := false, hasCloudStorageConfig := false, ackDeadlineSeconds := 0,
    retainAckedMessages := false, messageRetentionDuration := none, labels := ∅,
    enableMessageOrdering := false, expirationPolicy := none, filter := "",
    deadLetterPolicy := none, retryPolicy := none, detached := false,
    enableExactlyOnceDelivery := false }

end Composition

end OpenPubusb
