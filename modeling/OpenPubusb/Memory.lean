import OpenPubusb.Frame

/-! What the operations do to the memory of the engine. Whichever of the writes
fail, most of them reach the rows, the leases, the streams and the dead-letter log
alone. -/

namespace OpenPubusb

open Hoare

/-- A relation between engines that looks at none of these, but that the dead-letter
log only grows. -/
class MemoryFrame (R : Engine → Engine → Prop) : Prop where
  refl : ∀ s, R s s
  trans : ∀ {s t u}, R s t → R t u → R s u
  rows : ∀ s kv, R s { s with kv := kv }
  leases : ∀ s leases, R s { s with leases := leases }
  streams : ∀ s streams, R s { s with streams := streams }
  log : ∀ s added, R s { s with deadLettered := s.deadLettered ++ added }

section Frame

variable {R : Engine → Engine → Prop} [MemoryFrame R]

instance : Std.Refl R := ⟨MemoryFrame.refl⟩

instance : IsTrans Engine R := ⟨fun _ _ _ h h' => MemoryFrame.trans h h'⟩

theorem memory_onKv {α : Type} (m : KvM α) : Keeps R (onKv m) := by
  intro s
  rw [onKv, ensures_focus]
  unfold Ensures
  cases m s.kv with
  | ok a kv => exact MemoryFrame.rows s kv
  | error e kv => exact MemoryFrame.rows s kv

theorem memory_setLeases (leases : LeaseTable) : Keeps R (setLeases leases) :=
  Keeps.modify fun s => MemoryFrame.leases s leases

theorem memory_setStreams (streams : StreamRegistry) : Keeps R (setStreams streams) :=
  Keeps.modify fun s => MemoryFrame.streams s streams

theorem memory_removeLease (subId seq : Nat) : Keeps R (removeLease subId seq) :=
  Keeps.modify fun s => MemoryFrame.leases s (s.leases.remove subId seq)

theorem memory_grant (a : LeaseArgs) (sc : Scan) (seq : Nat) (m : MessageRecord) (n : Nat) :
    Keeps R (grant a sc seq m n) := by
  refine Keeps.bind Keeps.get fun _ => Keeps.bind (memory_setLeases _) fun _ => ?_
  exact Keeps.bind (memory_onKv _) fun _ => Keeps.pure _

theorem memory_tryDeadLetter (a : LeaseArgs) (seq : Nat) (m : MessageRecord)
    (policy : ReclaimPolicy) (n : Nat) : Keeps R (tryDeadLetter a seq m policy n) := by
  refine Keeps.ite (fun _ => Keeps.bind Keeps.get fun s => ?_) fun _ => Keeps.pure _
  cases TopicStore.get s.kv (policy.deadLetter.topic.getD "") with
  | ok dlq =>
    refine Keeps.bind (memory_onKv _) fun _ => ?_
    exact Keeps.bind (Keeps.modify fun _ => MemoryFrame.log _ _) fun _ => Keeps.pure _
  | error e =>
    cases e with
    | notFound _ => exact Keeps.pure _
    | _ => exact Keeps.throw _

theorem memory_reclaim (a : LeaseArgs) (sc : Scan) (seq : Nat) (m : MessageRecord)
    (deadlineMs : Int) (n : Nat) (live : Bool) :
    Keeps R (reclaim a sc seq m deadlineMs n live) := by
  refine Keeps.bind Keeps.get fun s => Keeps.ite (fun _ => Keeps.pure _) fun _ => ?_
  refine Keeps.bind (memory_tryDeadLetter _ _ _ _ _) fun forwarded => Keeps.bind ?_ fun _ => ?_
  · exact Keeps.ite (fun _ => memory_removeLease _ _) fun _ => Keeps.pure _
  · refine Keeps.ite (fun _ => ?_) fun _ => memory_grant _ _ _ _ _
    exact Keeps.bind (memory_onKv _) fun _ => Keeps.pure _

theorem memory_leaseOne (a : LeaseArgs) (sc : Scan) (seq : Nat) (m : MessageRecord) :
    Keeps R (leaseOne a sc seq m) := by
  refine Keeps.ite (fun _ => Keeps.pure _) fun _ => Keeps.ite (fun _ => Keeps.pure _) fun _ => ?_
  refine Keeps.bind Keeps.get fun s => ?_
  cases s.leases.get a.subId seq with
  | some lease => exact Keeps.ite (fun _ => Keeps.pure _) fun _ => memory_reclaim _ _ _ _ _ _ _
  | none =>
    cases s.kv.dlv.get ⟨a.subId, seq⟩ with
    | some row => exact memory_reclaim _ _ _ _ _ _ _
    | none => exact memory_grant _ _ _ _ _

theorem memory_leaseScan (a : LeaseArgs) (sc : Scan) (rows : List (Nat × MessageRecord)) :
    Keeps R (leaseScan a sc rows) := by
  induction rows generalizing sc with
  | nil => exact Keeps.pure _
  | cons row rows ih =>
    refine Keeps.ite (fun _ => Keeps.pure _) fun _ => ?_
    exact Keeps.bind (memory_leaseOne _ _ _ _) fun _ => ih _

theorem memory_saveChanged (subId : Nat) (c : CursorRecord × Bool) :
    Keeps R (saveChanged subId c) :=
  Keeps.ite (fun _ => memory_onKv _) fun _ => Keeps.pure _

theorem memory_leaseNextLocked (a : LeaseArgs) (c : CursorRecord) :
    Keeps R (leaseNextLocked a c) := by
  refine Keeps.bind Keeps.get fun _ => Keeps.bind (memory_leaseScan _ _ _) fun _ => ?_
  exact Keeps.bind (memory_saveChanged _ _) fun _ => Keeps.pure _

theorem memory_loadCursor (subId : Nat) : Keeps R (loadCursor subId) := by
  refine Keeps.bind Keeps.get fun s => ?_
  cases s.kv.cursors.get subId with
  | none => exact Keeps.throw _
  | some c => exact Keeps.pure _

theorem memory_ackAll (subId : Nat) (c : CursorRecord × Bool) (ackIds : List String) :
    Keeps R (ackAll subId c ackIds) := by
  induction ackIds generalizing c with
  | nil => exact Keeps.pure _
  | cons ackId ackIds ih =>
    refine Keeps.bind Keeps.get fun s => Keeps.bind (memory_setLeases _) fun _ => ?_
    cases (s.leases.ack ackId).2 with
    | applied lease => exact Keeps.bind (memory_onKv _) fun _ => ih _
    | _ => exact ih _

theorem memory_acknowledge (subId : Nat) (ackIds : List String) :
    Keeps R (acknowledge subId ackIds) := by
  refine Keeps.ite (fun _ => Keeps.pure _) fun _ => Keeps.bind (memory_loadCursor _) fun _ => ?_
  exact Keeps.bind (memory_ackAll _ _ _) fun _ => memory_saveChanged _ _

theorem memory_modifyAckDeadline (subId : Nat) (ackIds : List String) (nowMs seconds : Int) :
    Keeps R (modifyAckDeadline subId ackIds nowMs seconds) := by
  induction ackIds with
  | nil => exact Keeps.pure _
  | cons ackId ackIds ih =>
    refine Keeps.bind Keeps.get fun s => Keeps.bind (memory_setLeases _) fun _ => ?_
    cases (s.leases.extend ackId nowMs seconds).2 with
    | applied lease => exact Keeps.bind (memory_onKv _) fun _ => ih
    | _ => exact ih

theorem memory_releaseAll (subId : Nat) (seqs : List Nat) :
    Keeps R (releaseAll subId seqs) := by
  induction seqs with
  | nil => exact Keeps.pure _
  | cons seq seqs ih =>
    refine Keeps.bind (memory_removeLease _ _) fun _ => ?_
    exact Keeps.bind (Keeps.ignore (memory_onKv _)) fun _ => ih

theorem memory_restoreCursor (subId : Nat) (c : CursorRecord) :
    Keeps R (restoreCursor subId c) := by
  refine Keeps.bind Keeps.get fun s => Keeps.bind (memory_setLeases _) fun _ => ?_
  refine Keeps.bind (memory_onKv _) fun _ => Keeps.bind Keeps.get fun _ => ?_
  exact Keeps.bind (memory_onKv _) fun _ => memory_onKv _

theorem memory_attached (name : String) : Keeps R (PubSubService.attached name) := by
  refine Keeps.bind Keeps.get fun _ => Keeps.bind (Keeps.liftResult _) fun _ => ?_
  exact Keeps.ite (fun _ => Keeps.throw _) fun _ => Keeps.pure _

theorem memory_perform (nowMs : Int) {op : Op} (hpull : ∀ name n, op ≠ .pull name n)
    (hstream : ∀ sid, op ≠ .leaseForStream sid) (hrestart : op ≠ .restart) :
    Keeps R (perform nowMs op) := by
  cases op with
  | pull name n => exact absurd rfl (hpull name n)
  | leaseForStream sid => exact absurd rfl (hstream sid)
  | restart => exact absurd rfl hrestart
  | acknowledge =>
    refine Keeps.bind (Keeps.bind Keeps.get fun _ => ?_) fun _ => Keeps.pure _
    refine Keeps.bind (Keeps.liftResult _) fun _ => ?_
    exact Keeps.bind (memory_acknowledge _ _) fun _ => Keeps.ignore (memory_onKv _)
  | modifyAckDeadline =>
    refine Keeps.bind (Keeps.bind Keeps.get fun _ => ?_) fun _ => Keeps.pure _
    refine Keeps.bind (Keeps.liftResult _) fun _ => ?_
    exact Keeps.bind (memory_modifyAckDeadline _ _ _ _) fun _ => Keeps.ignore (memory_onKv _)
  | sweepSubscription =>
    refine Keeps.bind (Keeps.bind Keeps.get fun _ => ?_) fun _ => Keeps.pure _
    exact Keeps.bind (memory_setLeases _) fun _ => Keeps.pure _
  | sweepRetention =>
    refine Keeps.bind (Keeps.bind (memory_onKv _) fun _ => ?_) fun _ => Keeps.pure _
    exact Keeps.bind (Keeps.ignore (memory_onKv _)) fun _ => Keeps.pure _
  | openStream =>
    refine Keeps.bind (Keeps.bind (memory_attached _) fun _ => ?_) fun _ => Keeps.pure _
    refine Keeps.bind (Keeps.bind Keeps.get fun _ => ?_) fun _ => Keeps.pure _
    exact Keeps.bind (memory_setStreams _) fun _ => Keeps.pure _
  | updateStream =>
    exact Keeps.bind (Keeps.modify fun _ => MemoryFrame.streams _ _) fun _ => Keeps.pure _
  | streamAcknowledge =>
    refine Keeps.bind (Keeps.bind ?_ fun _ => Keeps.ignore (memory_onKv _)) fun _ => Keeps.pure _
    exact Keeps.bind (memory_acknowledge _ _) fun _ => Keeps.modify fun _ => MemoryFrame.streams _ _
  | streamModifyAckDeadline =>
    refine Keeps.bind (Keeps.bind ?_ fun _ => Keeps.ignore (memory_onKv _)) fun _ => Keeps.pure _
    refine Keeps.bind (memory_modifyAckDeadline _ _ _ _) fun _ => ?_
    exact Keeps.ite (fun _ => Keeps.modify fun _ => MemoryFrame.streams _ _) fun _ => Keeps.pure _
  | closeStream =>
    refine Keeps.bind (Keeps.bind Keeps.get fun s => ?_) fun _ => Keeps.pure _
    refine Keeps.bind (Keeps.modify fun _ => MemoryFrame.streams _ _) fun _ => ?_
    cases (s.streams.close _).2 with
    | none => exact Keeps.pure _
    | some p => exact memory_releaseAll _ _
  | createSnapshot =>
    refine Keeps.bind (Keeps.bind Keeps.get fun _ => ?_) fun _ => Keeps.pure _
    refine Keeps.bind (Keeps.liftResult _) fun _ => Keeps.bind (memory_loadCursor _) fun _ => ?_
    refine Keeps.bind (Keeps.bind (memory_loadCursor _) fun _ => ?_) fun _ => ?_
    · exact Keeps.bind Keeps.get fun _ => Keeps.pure _
    · exact Keeps.bind (Keeps.liftResult _) fun _ => memory_onKv _
  | seekToSnapshot =>
    refine Keeps.bind (Keeps.bind Keeps.get fun _ => ?_) fun _ => Keeps.pure _
    refine Keeps.bind (Keeps.liftResult _) fun _ => Keeps.bind (Keeps.liftResult _) fun _ => ?_
    exact Keeps.ite (fun _ => Keeps.throw _) fun _ => memory_restoreCursor _ _
  | seekToTime =>
    refine Keeps.bind (Keeps.bind Keeps.get fun _ => ?_) fun _ => Keeps.pure _
    refine Keeps.bind (Keeps.liftResult _) fun _ => Keeps.bind (memory_loadCursor _) fun _ => ?_
    exact memory_restoreCursor _ _
  | _ => exact Keeps.bind (memory_onKv _) fun _ => Keeps.pure _

end Frame

instance : MemoryFrame Logged where
  refl s := List.prefix_refl s.deadLettered
  trans h h' := h.trans h'
  rows s _ := List.prefix_refl s.deadLettered
  leases s _ := List.prefix_refl s.deadLettered
  streams s _ := List.prefix_refl s.deadLettered
  log s added := List.prefix_append s.deadLettered added

theorem logged_compiledFilter (subId : Nat) : Keeps Logged (compiledFilter subId) := by
  refine Keeps.bind Keeps.get fun s => ?_
  cases s.filters.get subId with
  | some f => exact Keeps.pure _
  | none => exact Keeps.bind (Keeps.modify fun s => List.prefix_refl _) fun _ => Keeps.pure _

theorem logged_leaseNext (subId topicId : Nat) (maxMessages nowMs secs : Int) :
    Keeps Logged (leaseNext subId topicId maxMessages nowMs secs) := by
  refine Keeps.ite (fun _ => Keeps.pure _) fun _ => Keeps.bind (memory_loadCursor _) fun _ => ?_
  exact Keeps.bind (logged_compiledFilter _) fun _ => memory_leaseNextLocked _ _

theorem logged_perform (nowMs : Int) (op : Op) : Keeps Logged (perform nowMs op) := by
  by_cases hpull : ∃ name n, op = .pull name n
  · obtain ⟨name, n, rfl⟩ := hpull
    refine Keeps.bind (Keeps.bind (Keeps.liftResult _) fun _ => ?_) fun _ => Keeps.pure _
    refine Keeps.bind (memory_attached _) fun _ => ?_
    refine Keeps.bind (logged_leaseNext _ _ _ _ _) fun _ => ?_
    exact Keeps.bind (Keeps.ignore (memory_onKv _)) fun _ => Keeps.pure _
  by_cases hstream : ∃ sid, op = .leaseForStream sid
  · obtain ⟨sid, rfl⟩ := hstream
    refine Keeps.bind Keeps.get fun _ => ?_
    refine Keeps.bind (Keeps.bind Keeps.get fun s => ?_) fun _ => Keeps.pure _
    cases s.streams.info sid with
    | none => exact Keeps.throw _
    | some info =>
      refine Keeps.ite (fun _ => Keeps.pure _) fun _ => ?_
      refine Keeps.bind (logged_leaseNext _ _ _ _ _) fun _ => Keeps.bind ?_ fun _ => Keeps.pure _
      exact Keeps.modify fun _ => MemoryFrame.streams _ _
  by_cases hrestart : op = .restart
  · subst hrestart
    exact Keeps.bind (Keeps.modify fun s => List.prefix_refl _) fun _ => Keeps.pure _
  · exact memory_perform nowMs (fun name n h => hpull ⟨name, n, h⟩) (fun sid h => hstream ⟨sid, h⟩)
      hrestart

end OpenPubusb
