import OpenPubusb.AckIds

/-! Ack ids name a lease generation in one way: what decodes is the encoding of its value. -/

namespace OpenPubusb

open Bytes

theorem eq_encodeAckId {s : String} {subId seq generation : Nat}
    (h : decodeAckId s = some (subId, seq, generation)) : s = encodeAckId subId seq generation := by
  simp only [decodeAckId, Option.bind_eq_bind, Option.bind_eq_some_iff] at h
  obtain ⟨bytes, hbytes, h⟩ := h
  split_ifs at h with hlen
  rw [Decidable.not_not] at hlen
  simp only [Option.some.injEq, Prod.mk.injEq] at h
  obtain ⟨rfl, rfl, rfl⟩ := h
  have hfirst := @toBe64_fromBe (bytes.take 8) (by simp [hlen])
  have hsecond := @toBe64_fromBe ((bytes.drop 8).take 8) (by simp [hlen])
  have hthird := @toBe64_fromBe (bytes.drop 16) (by simp [hlen])
  have hall : bytes.take 8 ++ (bytes.drop 8).take 8 ++ bytes.drop 16 = bytes := by
    rw [List.append_assoc, ← List.drop_drop (i := 8) (j := 8), List.take_append_drop,
      List.take_append_drop]
  rw [encodeAckId, hfirst, hsecond, hthird, hall, encode64_decode64 hbytes, String.ofList_toList]

/-- A string is decoded to a lease generation when it is the encoding of it, and else to
nothing; so no two strings name the same generation. -/
theorem ack_ids_bijective :
    (∀ s subId seq generation, subId < 2 ^ 64 → seq < 2 ^ 64 → generation < 2 ^ 64 →
      (decodeAckId s = some (subId, seq, generation) ↔ s = encodeAckId subId seq generation)) ∧
    ∀ s s' k, decodeAckId s = some k → decodeAckId s' = some k → s = s' := by
  refine ⟨fun s subId seq generation hsub hseq hgen => ⟨eq_encodeAckId, ?_⟩, fun s s' k h h' => ?_⟩
  · rintro rfl
    rw [decodeAckId_encodeAckId, Nat.mod_eq_of_lt hsub, Nat.mod_eq_of_lt hseq,
      Nat.mod_eq_of_lt hgen]
  · obtain ⟨subId, seq, generation⟩ := k
    rw [eq_encodeAckId h, eq_encodeAckId h']

theorem ack_ids_bijective_first : decodeAckId (encodeAckId 7 42 3) = some (7, 42, 3) :=
  (ack_ids_bijective.1 _ 7 42 3 (by decide) (by decide) (by decide)).mpr rfl

end OpenPubusb
