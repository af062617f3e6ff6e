import OpenPubusb.PolicyFields

/-! An accepted batch takes the next seqs of the log, one for each message in
order, and touches nothing else; a batch outside of the limits touches nothing. -/

namespace OpenPubusb

open Hoare

section Limits

def AttributeWithin (key value : String) : Prop :=
  key.utf8ByteSize ≤ maxAttributeKeyBytes ∧
    startsWith key attributeKeyForbiddenPrefix = false ∧
    value.utf8ByteSize ≤ maxAttributeValueBytes

structure PublishMessage.Within (m : PublishMessage) : Prop where
  count : m.attributes.size ≤ maxAttributes
  attributes : ∀ key value, m.attributes.get key = some value → AttributeWithin key value
  bytes : m.data.length + attributesBytes m.attributes ≤ maxMessageBytes
  orderingKey : m.orderingKey.utf8ByteSize ≤ maxOrderingKeyBytes

/-- The limits of a batch and of each of its messages. -/
def BatchWithin (messages : List PublishMessage) : Prop :=
  (∀ m ∈ messages, m.Within) ∧ messages.length ≤ maxPublishBatchMessages ∧
    TopicStore.batchBytes messages ≤ maxPublishBatchBytes

theorem validateAttribute_eq_ok {key value : String} :
    validateAttribute key value = .ok () ↔ AttributeWithin key value := by
  unfold validateAttribute AttributeWithin
  split_ifs with hk hg hv
  · exact ⟨nofun, fun h => absurd h.1 (by omega)⟩
  · exact ⟨nofun, fun h => absurd h.2.1 (by simp [hg])⟩
  · exact ⟨nofun, fun h => absurd h.2.2 (by omega)⟩
  · exact ⟨fun _ => ⟨by omega, by simpa using hg, by omega⟩, fun _ => rfl⟩

theorem validateAttributes_eq_ok {l : List (String × String)} :
    validateAttributes l = .ok () ↔ ∀ e ∈ l, AttributeWithin e.1 e.2 := by
  induction l with
  | nil => exact ⟨fun _ => nofun, fun _ => rfl⟩
  | cons e l ih =>
    rw [List.forall_mem_cons, ← ih, ← validateAttribute_eq_ok, validateAttributes, bind_eq_ok]
    exact ⟨fun ⟨_, h, h'⟩ => ⟨h, h'⟩, fun h => ⟨(), h.1, h.2⟩⟩

theorem ite_throw_eq_ok {α : Type} {c : Prop} [Decidable c] {e : Error} {x : Result α} {a : α} :
    (if c then throw e else x) = .ok a ↔ ¬ c ∧ x = .ok a := by
  by_cases hc : c
  · simp only [hc, if_true, not_true, false_and, iff_false]
    nofun
  · simp only [hc, if_false, not_false_eq_true, true_and]

theorem throw_bind {α β : Type} {e : Error} {f : α → Result β} :
    ((throw e : Result α) >>= f) = throw e := rfl

theorem validateMessage_eq_ok {m : PublishMessage} :
    validateMessage m.data.length m.attributes m.orderingKey = .ok () ↔ m.Within := by
  have hattributes : validateAttributes m.attributes.entries = .ok () ↔
      ∀ key value, m.attributes.get key = some value → AttributeWithin key value := by
    rw [validateAttributes_eq_ok]
    constructor
    · exact fun h key value hv => h (key, value) (SortedMap.mem_entries.mpr hv)
    · exact fun h e he => h e.1 e.2 (SortedMap.mem_entries.mp he)
  simp only [validateMessage, throw_bind, ite_throw_eq_ok, bind_eq_ok, hattributes, not_lt,
    gt_iff_lt]
  constructor
  · rintro ⟨hcount, _, hattrs, hbytes, hkey, _⟩
    exact ⟨hcount, hattrs, hbytes, hkey⟩
  · intro h
    exact ⟨h.count, (), h.attributes, h.bytes, h.orderingKey, rfl⟩

theorem validateMessages_eq_ok {messages : List PublishMessage} {u : Unit} :
    TopicStore.validateMessages messages = .ok u ↔ ∀ m ∈ messages, m.Within := by
  induction messages with
  | nil => exact ⟨fun _ => nofun, fun _ => rfl⟩
  | cons m ms ih =>
    rw [List.forall_mem_cons, ← ih, ← validateMessage_eq_ok, TopicStore.validateMessages,
      bind_eq_ok]
    exact ⟨fun ⟨_, h, h'⟩ => ⟨h, h'⟩, fun h => ⟨(), h.1, h.2⟩⟩

theorem validateBatch_eq_ok {messages : List PublishMessage} :
    TopicStore.validateBatch messages = .ok () ↔ BatchWithin messages := by
  simp only [TopicStore.validateBatch, validatePublishBatch, bind_eq_ok, validateMessages_eq_ok,
    throw_bind, ite_throw_eq_ok, not_lt, gt_iff_lt]
  constructor
  · rintro ⟨_, hmessages, hcount, hbytes, _⟩
    exact ⟨hmessages, hcount, hbytes⟩
  · rintro ⟨hmessages, hcount, hbytes⟩
    exact ⟨(), hmessages, hcount, hbytes, rfl⟩

end Limits

section Append

/-- What an accepted batch leaves: the counter has moved by its length, each message has the
row of its seq, and there is no other difference. -/
structure ExactlyAppended (topicId : Nat) (nowMs retentionSecs : Int)
    (messages : List PublishMessage) (kv kv' : Kv) : Prop where
  tail : TopicStore.currentTail kv' topicId = TopicStore.currentTail kv topicId + messages.length
  row : ∀ n (h : n < messages.length),
    ∃ row, kv'.msg.get ⟨topicId, TopicStore.currentTail kv topicId + 1 + n⟩ = some row ∧
      row.payload = messages[n].data ∧ row.attributes = messages[n].attributes ∧
      row.orderingKey = messages[n].orderingKey ∧ row.publishTsMs = nowMs ∧
      row.expireAtMs = satAddI64 nowMs (satMulI64 retentionSecs 1000)
  counters : ∀ t, t ≠ topicId → kv'.topicSeq.get t = kv.topicSeq.get t
  rows : ∀ key, (∀ n < messages.length,
    key ≠ ⟨topicId, TopicStore.currentTail kv topicId + 1 + n⟩) → kv'.msg.get key = kv.msg.get key
  rest : kv' = { kv with topicSeq := kv'.topicSeq, msg := kv'.msg, writes := kv'.writes }

/-- Nothing changed but the counter of the topic and its next `n` rows. -/
structure Confined (topicId n : Nat) (kv kv' : Kv) : Prop where
  counters : ∀ t, t ≠ topicId → kv'.topicSeq.get t = kv.topicSeq.get t
  rows : ∀ key, (∀ k < n, key ≠ ⟨topicId, TopicStore.currentTail kv topicId + 1 + k⟩) →
    kv'.msg.get key = kv.msg.get key
  rest : kv' = { kv with topicSeq := kv'.topicSeq, msg := kv'.msg, writes := kv'.writes }

theorem confined_stored {topicId n w : Nat} {m : MessageRecord} {kv kv' : Kv}
    (h : Confined topicId n (kv.stored topicId w m) kv') : Confined topicId (n + 1) kv kv' := by
  refine ⟨fun t ht => ?_, fun key hkey => ?_, ?_⟩
  · rw [h.counters t ht]
    exact SortedMap.get_insert_ne _ _ ht
  · have hrow : kv'.msg.get key = (kv.stored topicId w m).msg.get key := by
      refine h.rows key fun k hk => ?_
      rw [currentTail_stored, if_pos rfl]
      have := hkey (k + 1) (by omega)
      rwa [show TopicStore.currentTail kv topicId + 1 + (k + 1) =
        TopicStore.currentTail kv topicId + 1 + 1 + k by omega] at this
    rw [hrow]
    exact SortedMap.get_insert_ne _ _ (hkey 0 (by omega))
  · rw [h.rest]
    rfl

theorem ensures_appendAll_confined (topicId : Nat) (nowMs expireAtMs : Int)
    (messages : List PublishMessage) (kv : Kv) :
    Ensures (TopicStore.appendAll topicId nowMs expireAtMs messages) kv
      (fun _ kv' => Confined topicId messages.length kv kv') (fun _ _ => True) := by
  induction messages generalizing kv with
  | nil => exact ⟨fun _ _ => rfl, fun _ _ => rfl, rfl⟩
  | cons m ms ih =>
    simp only [TopicStore.appendAll, TopicStore.nextSeq, putTopicSeq, putMsg, ensures_bind,
      ensures_estateGet, ensures_kvWrite, ensures_pure]
    refine ⟨fun _ => ⟨fun _ => ?_, fun _ => trivial⟩, fun _ => trivial⟩
    exact (ih (kv.stored topicId (kv.writes + 1 + 1) _)).mono (fun _ _ h => confined_stored h)
      fun _ _ h => h

theorem appendAll_append (topicId : Nat) (nowMs expireAtMs : Int)
    (first second : List PublishMessage) :
    TopicStore.appendAll topicId nowMs expireAtMs (first ++ second) =
      TopicStore.appendAll topicId nowMs expireAtMs first >>= fun seqs =>
        TopicStore.appendAll topicId nowMs expireAtMs second >>= fun seqs' =>
          pure (seqs ++ seqs') := by
  induction first with
  | nil => simp [TopicStore.appendAll]
  | cons m ms ih => simp [TopicStore.appendAll, ih]

theorem batchWithin_append {first second : List PublishMessage}
    (h : BatchWithin (first ++ second)) : BatchWithin first ∧ BatchWithin second := by
  obtain ⟨hmessages, hcount, hbytes⟩ := h
  rw [List.length_append] at hcount
  have hsum : TopicStore.batchBytes (first ++ second) =
      TopicStore.batchBytes first + TopicStore.batchBytes second := by
    simp only [TopicStore.batchBytes, List.map_append, List.sum_append]
  exact ⟨⟨fun m hm => hmessages m (List.mem_append_left _ hm), by omega, by omega⟩,
    ⟨fun m hm => hmessages m (List.mem_append_right _ hm), by omega, by omega⟩⟩

theorem append_eq_of_within {topicId : Nat} {messages : List PublishMessage}
    {nowMs retentionSecs : Int} (h : BatchWithin messages) :
    TopicStore.append topicId messages nowMs retentionSecs =
      TopicStore.appendAll topicId nowMs (TopicStore.expireAt nowMs retentionSecs) messages := by
  rw [TopicStore.append, validateBatch_eq_ok.mpr h]
  rfl

theorem satExpire_eq_min {nowMs retentionSecs : Int} (hnow : i64Min ≤ nowMs)
    (hret : 0 ≤ retentionSecs) (h : 0 ≤ nowMs ∨ retentionSecs * 1000 ≤ i64Max) :
    satAddI64 nowMs (satMulI64 retentionSecs 1000) = min (nowMs + retentionSecs * 1000) i64Max := by
  unfold satAddI64 satMulI64 satI64 i64Min i64Max at *
  omega

theorem append_exact {kv : Kv} (hh : kv.Healthy) (topicId : Nat) (messages : List PublishMessage)
    (nowMs retentionSecs : Int) :
    (¬ BatchWithin messages →
      ∃ e, TopicStore.append topicId messages nowMs retentionSecs kv = .error e kv) ∧
    (BatchWithin messages → ∃ kv', TopicStore.append topicId messages nowMs retentionSecs kv =
        .ok (List.range' (TopicStore.currentTail kv topicId + 1) messages.length) kv' ∧
      ExactlyAppended topicId nowMs retentionSecs messages kv kv') ∧
    (i64Min ≤ nowMs → 0 ≤ retentionSecs → 0 ≤ nowMs ∨ retentionSecs * 1000 ≤ i64Max →
      satAddI64 nowMs (satMulI64 retentionSecs 1000) =
        min (nowMs + retentionSecs * 1000) i64Max) ∧
    ∀ first second, messages = first ++ second → BatchWithin messages →
      TopicStore.append topicId messages nowMs retentionSecs kv =
        (do
          let seqs ← TopicStore.append topicId first nowMs retentionSecs
          let seqs' ← TopicStore.append topicId second nowMs retentionSecs
          pure (seqs ++ seqs')) kv := by
  refine ⟨fun hbad => ?_, fun hin => ?_, satExpire_eq_min, ?_⟩
  · cases hv : TopicStore.validateBatch messages with
    | ok u => exact absurd (validateBatch_eq_ok.mp hv) hbad
    | error e =>
      refine ⟨e, ?_⟩
      rw [TopicStore.append, hv]
      rfl
  · rw [append_eq_of_within hin]
    have hall := (ensures_appendAll topicId nowMs (TopicStore.expireAt nowMs retentionSecs)
      messages kv).and (ensures_appendAll_confined topicId nowMs _ messages kv)
    cases hrun : TopicStore.appendAll topicId nowMs (TopicStore.expireAt nowMs retentionSecs)
        messages kv with
    | error e kv' =>
      obtain ⟨n, hn⟩ := (hall.of_error hrun).1.2.2
      rw [hh n] at hn
      cases hn
    | ok seqs kv' =>
      obtain ⟨happ, hconf⟩ := hall.of_ok hrun
      refine ⟨kv', by rw [happ.seqs_eq], happ.tail, fun n hn => ?_, hconf.counters, hconf.rows,
        hconf.rest⟩
      refine ⟨_, happ.rows (TopicStore.currentTail kv topicId + 1 + n, messages[n]) ?_, rfl, rfl,
        rfl, rfl, rfl⟩
      rw [happ.seqs_eq]
      refine List.mem_iff_getElem.mpr ⟨n, by simpa using hn, ?_⟩
      simp only [List.getElem_zip, List.getElem_range', Nat.one_mul]
  · rintro first second rfl hin
    obtain ⟨hfirst, hsecond⟩ := batchWithin_append hin
    rw [append_eq_of_within hin, append_eq_of_within hfirst, append_eq_of_within hsecond,
      appendAll_append]

/-- Two messages on an empty log. -/
theorem append_exact_two :
    let messages := [⟨[1, 2], ∅, ""⟩, ⟨[3], SortedMap.empty.insert "k" "v", "key"⟩]
    ∃ kv', TopicStore.append 1 messages 5 600 .empty = .ok [1, 2] kv' ∧
      ExactlyAppended 1 5 600 messages .empty kv' := by
  intro messages
  have hin : BatchWithin messages := validateBatch_eq_ok.mp (by decide +kernel)
  exact (@append_exact .empty (fun _ => rfl) 1 messages 5 600).2.1 hin

end Append

end OpenPubusb
