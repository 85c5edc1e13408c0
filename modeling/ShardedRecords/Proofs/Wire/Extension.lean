import ShardedRecords.Proofs.Wire.Messages

/-!
# Growing and cut buffers

Decoding is incremental as a whole. Unless it runs out of bytes, what follows in
the buffer is without effect on the result, and without any one of the bytes that
were consumed it does run out.
-/
namespace ShardedRecords

namespace Table

/-- Where the stream of a buffer ends, with or without a fault, or where its header
turned out to be faulty. -/
def consumed (e : Encoding) (buf : Bytes) : Nat :=
  match RecordStream.ofBytes e buf with
  | .ok s => (s.skip s.declared).cursor.pos
  | .error _ => ((Cursor.ofBytes buf).read (.count e)).2.pos

theorem consumed_eq (e : Encoding) (buf : Bytes) :
    consumed e buf = ((Cursor.ofBytes buf).read (.message e)).2.pos := by
  have hmessage : (Cursor.ofBytes buf).read (.message e) = _ := Cursor.read_bind ..
  rw [consumed, hmessage, RecordStream.ofBytes]
  rcases (Cursor.ofBytes buf).read (.count e) with ⟨fault | n, c⟩
  · rfl
  · simp only [RecordStream.skip_of_left_le (s := ⟨e, n, n, c⟩) (Nat.le_refl n)]

theorem truncated_decode_iff {e : Encoding} {buf : Bytes} :
    Truncated (decode e buf) ↔ Truncated ((Cursor.ofBytes buf).read (.message e)).1 := by
  rw [decode_eq, truncated_map_iff]

/-- The consumed bytes alone settle the result. -/
theorem exists_settles_of_not_truncated {e : Encoding} {buf : Bytes}
    (h : ¬Truncated (decode e buf)) :
    ∃ front rest, buf = front ++ rest ∧ front.length = consumed e buf ∧
      (Reader.message e).Settles front ((Cursor.ofBytes buf).read (.message e)).1 := by
  rw [truncated_decode_iff] at h
  obtain ⟨front, hbuf, hpos, hs⟩ := (Reader.Composed.message e).incremental.exists_settles h
  exact ⟨front, _, hbuf, by rw [consumed_eq, hpos]; exact (Nat.zero_add _).symm, hs⟩

theorem decode_append {e : Encoding} {buf : Bytes} (h : ¬Truncated (decode e buf)) (more : Bytes) :
    decode e (buf ++ more) = decode e buf := by
  obtain ⟨front, rest, hbuf, -, hs⟩ := exists_settles_of_not_truncated h
  have hread := hs 0 (rest ++ more)
  rw [← List.append_assoc, ← hbuf] at hread
  rw [decode_eq, decode_eq, Cursor.ofBytes, hread]

theorem truncated_decode_take {e : Encoding} {buf : Bytes} (h : ¬Truncated (decode e buf)) {n : Nat}
    (hn : n < consumed e buf) : Truncated (decode e (buf.take n)) := by
  obtain ⟨front, rest, rfl, hlen, hs⟩ := exists_settles_of_not_truncated h
  rw [truncated_decode_iff, List.take_append_of_le_length (by omega)]
  exact (Reader.Composed.message e).incremental.truncated_of_take hs (hlen ▸ hn) 0

end Table

open Table

/-- A written message is consumed whole. -/
theorem consumed_of_encode {α β : Type} [HasBytes α] [HasBytes β] {e : Encoding}
    {entries : List (α × β)} {buf : Bytes} (h : encode e entries = .ok buf) :
    ¬Truncated (decode e buf) ∧ consumed e buf = buf.length := by
  obtain ⟨rs, -, hfits, hsize, rfl⟩ := encode_eq_ok h
  have hcount := Nat.lt_of_le_of_lt (Record.length_le_length_flatMap_bytes e rs) hsize
  have hmessage := Reader.Settles.messageBytes hcount hfits 0 []
  rw [List.append_nil] at hmessage
  rw [truncated_decode_iff, consumed_eq, Cursor.ofBytes, hmessage]
  exact ⟨not_truncated_ok rs, Nat.zero_add _⟩

/-- A table or an overflow that a buffer decodes to is not revised when the buffer
grows, and each of the bytes that were consumed for it is needed. So every
message that is cut short is found to be. -/
theorem decode_stable_and_cuts_truncated (e : Encoding) :
    (∀ buf, ¬Truncated (decode e buf) →
      (∀ more, decode e (buf ++ more) = decode e buf) ∧
      ∀ n < consumed e buf, Truncated (decode e (buf.take n))) ∧
    ∀ (α β : Type) [HasBytes α] [HasBytes β] (entries : List (α × β)) (buf : Bytes),
      encode e entries = .ok buf → ∀ n < buf.length, Truncated (decode e (buf.take n)) := by
  refine ⟨fun buf h => ⟨decode_append h, fun n => truncated_decode_take h⟩, ?_⟩
  intro α β _ _ entries buf hencode n hn
  obtain ⟨h, hconsumed⟩ := consumed_of_encode hencode
  exact truncated_decode_take h (hconsumed ▸ hn)

/-- The length of the one key is too large, which only its last byte shows. -/
theorem decode_stable_and_cuts_truncated_overlong :
    let buf : Bytes := 1 :: List.replicate 9 255 ++ [2, 7]
    consumed .varint buf = 11 ∧ decode .varint (buf ++ [7]) = decode .varint buf ∧
      ∀ n < 11, Truncated (decode .varint (buf.take n)) := by
  intro buf
  have hconsumed : consumed .varint buf = 11 := by decide +kernel
  have hread : ((Cursor.ofBytes buf).read (.message .varint)).1 =
      .error (.lengthOverflow .varint 9223372036854775807) := by decide +kernel
  have hsettled : ¬Truncated (decode .varint buf) := by
    rw [truncated_decode_iff, hread]
    rintro ⟨_, _, _, h⟩
    cases h
  obtain ⟨happend, hcut⟩ := (decode_stable_and_cuts_truncated .varint).1 buf hsettled
  exact ⟨hconsumed, happend [7], fun n hn => hcut n (hconsumed ▸ hn)⟩

end ShardedRecords
