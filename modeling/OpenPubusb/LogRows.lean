import OpenPubusb.Rows

/-! What an append does to the store: it only ever adds rows above the tail of
a log, and a successful one fills every seq up to the new tail. -/

namespace OpenPubusb

open Hoare

/-- What an append may do: no row of a log is replaced or removed, and the tail
only moves up. -/
structure Extended (kv kv' : Kv) : Prop where
  ok : kv'.ok = kv.ok
  idSeq : kv'.idSeq = kv.idSeq
  subs : kv'.subs = kv.subs
  idx : kv'.idx = kv.idx
  topics : kv'.topics = kv.topics
  topicNames : kv'.topicNames = kv.topicNames
  tail : ∀ topicId, TopicStore.currentTail kv topicId ≤ TopicStore.currentTail kv' topicId
  kept : ∀ topicId seq, seq ≤ TopicStore.currentTail kv topicId →
    kv'.msg.get ⟨topicId, seq⟩ = kv.msg.get ⟨topicId, seq⟩
  log : (∀ topicId seq, (kv.msg.get ⟨topicId, seq⟩).isSome →
      seq ≤ TopicStore.currentTail kv topicId) →
    ∀ topicId seq, (kv'.msg.get ⟨topicId, seq⟩).isSome → seq ≤ TopicStore.currentTail kv' topicId

variable {kv kv' kv'' : Kv}

theorem Extended.refl : Extended kv kv :=
  ⟨rfl, rfl, rfl, rfl, rfl, rfl, fun _ => le_rfl, fun _ _ _ => rfl, fun h => h⟩

theorem Extended.trans (h : Extended kv kv') (h' : Extended kv' kv'') : Extended kv kv'' where
  ok := h'.ok.trans h.ok
  idSeq := h'.idSeq.trans h.idSeq
  subs := h'.subs.trans h.subs
  idx := h'.idx.trans h.idx
  topics := h'.topics.trans h.topics
  topicNames := h'.topicNames.trans h.topicNames
  tail topicId := (h.tail topicId).trans (h'.tail topicId)
  kept topicId seq hs := (h'.kept topicId seq (hs.trans (h.tail topicId))).trans
    (h.kept topicId seq hs)
  log hl := h'.log (h.log hl)

instance : Std.Refl Extended := ⟨fun _ => Extended.refl⟩

instance : IsTrans Kv Extended := ⟨fun _ _ _ => Extended.trans⟩

/-- The store once the counter of the topic has moved up. -/
def Kv.counted (kv : Kv) (topicId writes : Nat) : Kv :=
  { kv with
    topicSeq := kv.topicSeq.insert topicId (TopicStore.currentTail kv topicId + 1)
    writes := writes }

def Kv.stored (kv : Kv) (topicId writes : Nat) (m : MessageRecord) : Kv :=
  { kv.counted topicId writes with
    msg := kv.msg.insert ⟨topicId, TopicStore.currentTail kv topicId + 1⟩ m }

theorem currentTail_counted (kv : Kv) (topicId w t : Nat) :
    TopicStore.currentTail (kv.counted topicId w) t =
      if t = topicId then TopicStore.currentTail kv topicId + 1
      else TopicStore.currentTail kv t := by
  simp only [TopicStore.currentTail, Kv.counted, SortedMap.get_insert]
  split_ifs <;> rfl

theorem currentTail_stored (kv : Kv) (topicId w t : Nat) (m : MessageRecord) :
    TopicStore.currentTail (kv.stored topicId w m) t =
      if t = topicId then TopicStore.currentTail kv topicId + 1
      else TopicStore.currentTail kv t :=
  currentTail_counted kv topicId w t

theorem currentTail_le_counted (kv : Kv) (topicId w t : Nat) :
    TopicStore.currentTail kv t ≤ TopicStore.currentTail (kv.counted topicId w) t := by
  rw [currentTail_counted]
  split_ifs with ht
  · rw [ht]
    exact Nat.le_succ _
  · exact le_rfl

theorem extended_counted (kv : Kv) (topicId w : Nat) : Extended kv (kv.counted topicId w) :=
  ⟨rfl, rfl, rfl, rfl, rfl, rfl, currentTail_le_counted kv topicId w, fun _ _ _ => rfl,
    fun hl t q hq => (hl t q hq).trans (currentTail_le_counted kv topicId w t)⟩

theorem extended_stored (kv : Kv) (topicId w : Nat) (m : MessageRecord) :
    Extended kv (kv.stored topicId w m) := by
  refine ⟨rfl, rfl, rfl, rfl, rfl, rfl, currentTail_le_counted kv topicId w, ?_, ?_⟩
  · intro t q hq
    refine SortedMap.get_insert_ne _ _ fun hk => ?_
    simp only [RowKey.mk.injEq] at hk
    rw [hk.1, hk.2] at hq
    omega
  · intro hl t q hq
    simp only [Kv.stored, SortedMap.get_insert, RowKey.mk.injEq] at hq
    split_ifs at hq with hk
    · rw [currentTail_stored, if_pos hk.1, hk.2]
    · exact (hl t q hq).trans (currentTail_le_counted kv topicId w t)

/-- Every seq between the old and the new tail has its row. -/
def Filled (kv kv' : Kv) : Prop :=
  ∀ topicId seq, TopicStore.currentTail kv topicId < seq →
    seq ≤ TopicStore.currentTail kv' topicId → (kv'.msg.get ⟨topicId, seq⟩).isSome

theorem Extended.wellFormed (h : Extended kv kv')
    (hc : ∀ {id c'}, kv'.cursors.get id = some c' → ∃ c, kv.cursors.get id = some c)
    (hwf : kv.WellFormed) : kv'.WellFormed where
  record hr := by
    rw [h.subs] at hr
    rw [Kv.counter, h.idSeq]
    exact hwf.record hr
  cursor hc' := by
    rw [Kv.counter, h.idSeq]
    obtain ⟨c, hc⟩ := hc hc'
    exact hwf.cursor hc
  index hi := by
    rw [h.idx] at hi
    rw [Kv.counter, h.idSeq, h.subs]
    exact hwf.index hi
  log {topicId seq m} hm := by
    refine h.log (fun t q hq => ?_) topicId seq (Option.isSome_of_eq_some hm)
    obtain ⟨m', hm'⟩ := Option.isSome_iff_exists.mp hq
    exact hwf.log hm'

theorem Filled.refl : Filled kv kv := by
  intro t q hlo hhi
  omega

theorem filled_stored (kv : Kv) (topicId w : Nat) (m : MessageRecord) :
    Filled kv (kv.stored topicId w m) := by
  intro t q hlo hhi
  rw [currentTail_stored] at hhi
  split_ifs at hhi with ht
  · have hq : q = TopicStore.currentTail kv topicId + 1 := by
      rw [ht] at hlo
      omega
    simp [Kv.stored, ht, hq]
  · omega

theorem Filled.trans (h : Filled kv kv') (h' : Filled kv' kv'') (he : Extended kv' kv'') :
    Filled kv kv'' := by
  intro t q hlo hhi
  rcases Nat.lt_or_ge (TopicStore.currentTail kv' t) q with hq | hq
  · exact h' t q hq hhi
  · rw [he.kept t q hq]
    exact h t q hlo hq

/-- The message was not swept away: it is still to be published or has its row. -/
def Kv.present (kv : Kv) (topicId seq : Nat) : Bool :=
  TopicStore.currentTail kv topicId < seq || (kv.msg.get ⟨topicId, seq⟩).isSome

theorem Extended.present_eq (h : Extended kv kv') (hf : Filled kv kv') (topicId seq : Nat) :
    kv'.present topicId seq = kv.present topicId seq := by
  unfold Kv.present
  have ht := h.tail topicId
  rcases Nat.lt_or_ge (TopicStore.currentTail kv topicId) seq with hs | hs
  · rcases Nat.lt_or_ge (TopicStore.currentTail kv' topicId) seq with hs' | hs'
    · simp [hs, hs']
    · simp [hs, hf topicId seq hs hs']
  · rw [h.kept topicId seq hs]
    have hs' : ¬ TopicStore.currentTail kv' topicId < seq := by omega
    simp [not_lt.mpr hs, hs']

/-- What a successful append leaves: consecutive seqs from the old tail on, each
with the row of its message. -/
structure Appended (topicId : Nat) (nowMs expireAtMs : Int) (messages : List PublishMessage)
    (kv : Kv) (seqs : List Nat) (kv' : Kv) : Prop where
  extended : Extended kv kv'
  filled : Filled kv kv'
  rows_kept : kv'.dlv = kv.dlv ∧ kv'.cursors = kv.cursors
  seqs_eq : seqs = List.range' (TopicStore.currentTail kv topicId + 1) messages.length
  tail : TopicStore.currentTail kv' topicId =
    TopicStore.currentTail kv topicId + messages.length
  rows : ∀ p ∈ seqs.zip messages,
    kv'.msg.get ⟨topicId, p.1⟩ = some (TopicStore.record p.2 nowMs expireAtMs)

theorem ensures_appendAll (topicId : Nat) (nowMs expireAtMs : Int)
    (messages : List PublishMessage) (kv : Kv) :
    Ensures (TopicStore.appendAll topicId nowMs expireAtMs messages) kv
      (fun seqs kv' => Appended topicId nowMs expireAtMs messages kv seqs kv')
      (fun _ kv' => Extended kv kv' ∧ (kv'.dlv = kv.dlv ∧ kv'.cursors = kv.cursors) ∧
        ∃ n, kv.ok n = false) := by
  induction messages generalizing kv with
  | nil =>
    refine ⟨Extended.refl, Filled.refl, ⟨rfl, rfl⟩, rfl, rfl, fun p hp => ?_⟩
    cases hp
  | cons m ms ih =>
    simp only [TopicStore.appendAll, TopicStore.nextSeq, putTopicSeq, putMsg, ensures_bind,
      ensures_estateGet, ensures_kvWrite, ensures_pure]
    refine ⟨fun _ => ⟨fun _ => ?_, fun hf => ⟨extended_counted kv topicId _, ⟨trivial, trivial⟩, _, hf⟩⟩,
      fun hf => ⟨?_, ⟨trivial, trivial⟩, _, hf⟩⟩
    · have hst := extended_stored kv topicId (kv.writes + 1 + 1)
        (TopicStore.record m nowMs expireAtMs)
      have htail := currentTail_stored kv topicId (kv.writes + 1 + 1) topicId
        (TopicStore.record m nowMs expireAtMs)
      rw [if_pos rfl] at htail
      refine (ih (kv.stored topicId (kv.writes + 1 + 1) _)).mono (fun seqs kv' h => ?_)
        (fun _ kv' h => ⟨hst.trans h.1, h.2⟩)
      refine ⟨hst.trans h.extended, ?_, h.rows_kept, ?_, ?_, ?_⟩
      · exact Filled.trans (filled_stored kv topicId _ _) h.filled h.extended
      · rw [h.seqs_eq, htail]
        rfl
      · rw [h.tail, htail, List.length_cons]
        omega
      · intro p hp
        rcases List.mem_cons.mp hp with rfl | hp
        · rw [h.extended.kept topicId _ (le_of_eq htail.symm)]
          exact SortedMap.get_insert_self ..
        · exact h.rows p hp
    · exact ⟨rfl, rfl, rfl, rfl, rfl, rfl, fun _ => le_rfl, fun _ _ _ => rfl, fun h => h⟩

theorem ensures_append (topicId : Nat) (messages : List PublishMessage)
    (nowMs retentionSecs : Int) (kv : Kv) :
    Ensures (TopicStore.append topicId messages nowMs retentionSecs) kv
      (fun seqs kv' => Appended topicId nowMs (TopicStore.expireAt nowMs retentionSecs) messages
        kv seqs kv')
      (fun _ kv' => Extended kv kv' ∧ (kv'.dlv = kv.dlv ∧ kv'.cursors = kv.cursors) ∧
        (kv' = kv ∧ (∃ e, TopicStore.validateBatch messages = .error e) ∨
          ∃ n, kv.ok n = false)) := by
  simp only [TopicStore.append, ensures_bind, ensures_liftResult]
  refine ⟨fun _ _ => ?_, fun e he => ⟨Extended.refl, ⟨trivial, trivial⟩, Or.inl ⟨trivial, e, he⟩⟩⟩
  exact (ensures_appendAll ..).mono (fun _ _ h => h) (fun _ _ h => ⟨h.1, h.2.1, Or.inr h.2.2⟩)

end OpenPubusb
