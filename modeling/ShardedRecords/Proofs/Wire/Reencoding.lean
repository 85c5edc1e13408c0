import Mathlib.Tactic.TFAE
import ShardedRecords.Proofs.Base128.Shortest
import ShardedRecords.Proofs.Wire.Extension
import ShardedRecords.Proofs.Wire.Grammar

/-!
# Writing again what was read

The records of a message can always be written again. In the fixed encoding this gives the
bytes that were read. In base 128 it takes the padding out of every number: the new message
is shorter unless there was none, and then it is the old one.
-/
namespace ShardedRecords

/-! ## Messages as they are written -/

namespace Encoding

variable {e : Encoding} {bs : Bytes} {n : Nat}

theorem SpellsCount.written (h : e.SpellsCount bs n) : e.SpellsCount (e.countBytes n) n := by
  cases e with
  | fixed => exact ⟨h.1, rfl⟩
  | varint => exact Base128.spellsWord_spell h.lt_size

theorem SpellsLength.written (h : e.SpellsLength bs n) : e.SpellsLength (e.lengthBytes n) n := by
  cases e with
  | fixed => exact ⟨h.1, rfl⟩
  | varint => exact Base128.spellsWord_spell h.lt_size

theorem SpellsCount.eqOrShorter (h : e.SpellsCount bs n) : (e.countBytes n).EqOrShorter bs := by
  cases e with
  | fixed => exact .inl h.2.symm
  | varint => exact h.spells.spell_eqOrShorter

theorem SpellsLength.eqOrShorter (h : e.SpellsLength bs n) : (e.lengthBytes n).EqOrShorter bs := by
  cases e with
  | fixed => exact .inl h.2.symm
  | varint => exact h.spells.spell_eqOrShorter

end Encoding

namespace SpelledField

def written (e : Encoding) (content : Bytes) : SpelledField :=
  ⟨e.lengthBytes content.length, content⟩

theorem bytes_written (e : Encoding) (content : Bytes) :
    (written e content).bytes = e.fieldBytes content := rfl

theorem Valid.eqOrShorter {e : Encoding} {f : SpelledField} (h : f.Valid e) :
    (e.fieldBytes f.content).EqOrShorter f.bytes :=
  (Encoding.SpellsLength.eqOrShorter h).append (.refl _)

end SpelledField

namespace SpelledRecord

def written (e : Encoding) (r : Record) : SpelledRecord := ⟨.written e r.key, .written e r.value⟩

theorem bytes_written (e : Encoding) (r : Record) : (written e r).bytes = r.bytes e := rfl

variable {e : Encoding} {r : SpelledRecord} {items : List SpelledRecord}

theorem eq_written_iff : r = .written e r.record ↔
    r.key.lengthBytes = e.lengthBytes r.key.content.length ∧
      r.value.lengthBytes = e.lengthBytes r.value.content.length := by
  obtain ⟨⟨keyLength, key⟩, ⟨valueLength, value⟩⟩ := r
  simp [SpelledRecord.written, SpelledField.written, record]

theorem Valid.written (h : r.Valid e) : (SpelledRecord.written e r.record).Valid e :=
  ⟨Encoding.SpellsLength.written h.key, Encoding.SpellsLength.written h.value⟩

theorem Valid.eqOrShorter (h : r.Valid e) : (r.record.bytes e).EqOrShorter r.bytes :=
  h.key.eqOrShorter.append h.value.eqOrShorter

theorem eqOrShorter_items (h : ∀ r ∈ items, r.Valid e) :
    Bytes.EqOrShorter ((items.map record).flatMap (Record.bytes e)) (items.flatMap bytes) := by
  induction items with
  | nil => exact .refl _
  | cons r items ih =>
    rw [List.forall_mem_cons] at h
    simp only [List.map_cons, List.flatMap_cons]
    exact h.1.eqOrShorter.append (ih h.2)

end SpelledRecord

namespace SpelledMessage

def written (e : Encoding) (rs : List Record) : SpelledMessage :=
  ⟨e.countBytes rs.length, rs.map (SpelledRecord.written e)⟩

theorem bytes_written (e : Encoding) (rs : List Record) :
    (written e rs).bytes = e.messageBytes rs := by
  simp only [bytes, written, Encoding.messageBytes, List.flatMap_map, SpelledRecord.bytes_written]

/-- The spellings of the count and of every length, each with the number it spells. -/
def numbers (m : SpelledMessage) : List (Bytes × Nat) :=
  (m.countBytes, m.items.length) :: m.items.flatMap fun r =>
    [(r.key.lengthBytes, r.key.content.length), (r.value.lengthBytes, r.value.content.length)]

variable {e : Encoding} {m : SpelledMessage}

theorem Valid.written (h : m.Valid e) : (SpelledMessage.written e m.records).Valid e := by
  constructor
  · simp only [SpelledMessage.written, records, List.length_map]
    exact h.count.written
  · intro r hr
    simp only [SpelledMessage.written, records, List.map_map, List.mem_map] at hr
    obtain ⟨item, hitem, rfl⟩ := hr
    exact (h.items item hitem).written

theorem Valid.eqOrShorter (h : m.Valid e) : (e.messageBytes m.records).EqOrShorter m.bytes := by
  unfold Encoding.messageBytes records
  simp only [List.length_map]
  exact h.count.eqOrShorter.append (SpelledRecord.eqOrShorter_items h.items)

theorem eq_written_iff : m = .written e m.records ↔ m.countBytes = e.countBytes m.items.length ∧
    ∀ r ∈ m.items, r.key.lengthBytes = e.lengthBytes r.key.content.length ∧
      r.value.lengthBytes = e.lengthBytes r.value.content.length := by
  obtain ⟨countBytes, items⟩ := m
  have hitems : items = items.map (fun r => .written e r.record) ↔
      ∀ r ∈ items, r = .written e r.record := by
    conv_lhs => lhs; rw [← List.map_id items]
    exact List.map_inj_left
  simp only [SpelledMessage.written, records, List.map_map, List.length_map, mk.injEq,
    Function.comp_def, hitems, SpelledRecord.eq_written_iff]

theorem Valid.eq_written_of_fixed (h : m.Valid .fixed) : m = .written .fixed m.records := by
  apply eq_written_iff.mpr
  exact ⟨h.count.2, fun r hr => ⟨(h.items r hr).key.2, (h.items r hr).value.2⟩⟩

theorem forall_mem_numbers {p : Bytes → Nat → Prop} :
    (∀ number ∈ m.numbers, p number.1 number.2) ↔
      p m.countBytes m.items.length ∧ ∀ r ∈ m.items,
        p r.key.lengthBytes r.key.content.length ∧
          p r.value.lengthBytes r.value.content.length := by
  simp only [numbers, List.forall_mem_cons, List.forall_mem_flatMap, List.not_mem_nil,
    false_implies, implies_true, and_true]

theorem Valid.spells_numbers (h : m.Valid .varint) :
    ∀ number ∈ m.numbers, Base128.Spells number.1 number.2 := by
  apply forall_mem_numbers (p := Base128.Spells).mpr
  exact ⟨h.count.spells, fun r hr => ⟨(h.items r hr).key.spells, (h.items r hr).value.spells⟩⟩

theorem eq_written_varint_iff : m = .written .varint m.records ↔
    ∀ number ∈ m.numbers, number.1 = Base128.spell number.2 :=
  eq_written_iff.trans (forall_mem_numbers (p := fun bs n => bs = Base128.spell n)).symm

/-- The message is written in the bytes it was read from, if it has these bytes at all. -/
theorem Valid.bytes_eq_iff (h : m.Valid e) :
    e.messageBytes m.records = m.bytes ↔ m = .written e m.records := by
  rw [← bytes_written]
  constructor
  · intro heq
    have happend : m.bytes ++ [] = (SpelledMessage.written e m.records).bytes ++ [] := by rw [heq]
    exact (h.unique h.written happend).1
  · intro heq
    rw [← heq]

end SpelledMessage

/-! ## What is written of what was read -/

theorem consumed_of_valid {e : Encoding} {m : SpelledMessage} (h : m.Valid e) (rest : Bytes) :
    Table.consumed e (m.bytes ++ rest) = m.bytes.length := by
  have hread := Reader.settles_message_iff.mpr ⟨m, h, rfl, rfl⟩ 0 rest
  rw [Table.consumed_eq, Cursor.ofBytes, hread]
  exact Nat.zero_add _

/-- Records that a stream has yielded can be written again. In the fixed encoding the message
is the one that was read. In base 128 it is no longer than that, and it is as long exactly if
it is the same, which is to say that every number in it was spelled without padding. -/
theorem encode_of_yields {e : Encoding} {buf : Bytes} {rs : List Record}
    (hyields : RecordStream.Yields e buf rs) (hbuf : buf.length < UInt64.size) :
    let c := Table.consumed e buf
    ∃ out m rest, encode e (rs.map Record.entry) = .ok out ∧
      SpelledMessage.Valid e m ∧ m.records = rs ∧ buf = m.bytes ++ rest ∧ m.bytes = buf.take c ∧
      (e = .fixed → out = buf.take c) ∧
      (e = .varint → out.length ≤ c ∧ [out.length = c, out = buf.take c,
        ∀ number ∈ m.numbers, Base128.Shortest number.1 number.2,
        ∀ number ∈ m.numbers, ¬Base128.Padded number.1].TFAE) := by
  intro c
  obtain ⟨m, rest, hvalid, rfl, rfl⟩ :=
    read_message_eq_ok_iff.mp (RecordStream.yields_iff_read_message.mp hyields)
  have hc : c = m.bytes.length := consumed_of_valid hvalid rest
  have htake : (m.bytes ++ rest).take c = m.bytes := by
    rw [hc, List.take_left]
  have hshorter := hvalid.eqOrShorter
  have hfits : ∀ r ∈ m.records, r.Fits e := by
    intro r hr
    obtain ⟨item, hitem, rfl⟩ := List.mem_map.mp hr
    exact (hvalid.items item hitem).fits
  have hsize : (m.records.flatMap (Record.bytes e)).length < UInt64.size := by
    have hle := hshorter.length_le
    simp only [Encoding.messageBytes, List.length_append] at hle hbuf
    omega
  refine ⟨_, m, rest, encode_of_fits hfits hsize, hvalid, rfl, rfl, htake.symm, ?_, ?_⟩
  · rintro rfl
    rw [htake]
    exact hvalid.bytes_eq_iff.mpr hvalid.eq_written_of_fixed
  · rintro rfl
    rw [htake, hc]
    have hspells := hvalid.spells_numbers
    refine ⟨hshorter.length_le, ?_⟩
    tfae_have 1 → 2 := fun hlength => hshorter.eq_of_length_le (Nat.le_of_eq hlength.symm)
    tfae_have 2 → 1 := fun heq => by rw [heq]
    tfae_have 2 ↔ 3 := by
      rw [hvalid.bytes_eq_iff, SpelledMessage.eq_written_varint_iff]
      exact forall₂_congr fun number hnumber => (hspells number hnumber).shortest_iff.symm
    tfae_have 2 ↔ 4 := by
      rw [hvalid.bytes_eq_iff, SpelledMessage.eq_written_varint_iff]
      exact forall₂_congr fun number hnumber => (hspells number hnumber).not_padded_iff.symm
    tfae_finish

/-- The count and the length of the empty value are padded, and a byte stands behind the
message. -/
theorem encode_of_yields_padded :
    let buf : Bytes := [0x81, 0, 1, 5, 0x80, 0, 9]
    (RecordStream.Yields .varint buf [⟨[5], []⟩] ∧ buf.length < UInt64.size) ∧
      Table.consumed .varint buf = 6 ∧
      encode .varint [(([5] : Bytes), ([] : Bytes))] = .ok [1, 1, 5, 0] ∧
      ∃ m rest, SpelledMessage.Valid .varint m ∧ buf = m.bytes ++ rest ∧
        ∃ number ∈ m.numbers, Base128.Padded number.1 := by
  intro buf
  have hyields : RecordStream.Yields .varint buf [⟨[5], []⟩] :=
    RecordStream.yields_iff_read_message.mpr (by decide +kernel)
  have hbuf : buf.length < UInt64.size := by decide
  have hconsumed : Table.consumed .varint buf = 6 := by decide +kernel
  have hencode : encode .varint [(([5] : Bytes), ([] : Bytes))] = .ok [1, 1, 5, 0] := by
    decide +kernel
  obtain ⟨out, m, rest, hout, hvalid, -, hsplit, -, -, hvarint⟩ := encode_of_yields hyields hbuf
  cases hout.symm.trans hencode
  refine ⟨⟨hyields, hbuf⟩, hconsumed, hencode, m, rest, hvalid, hsplit, ?_⟩
  obtain ⟨-, hsame⟩ := hvarint rfl
  by_contra hnone
  have hlength := (hsame.out 3 0).mp fun number hnumber hpadded => hnone ⟨number, hnumber, hpadded⟩
  rw [hconsumed] at hlength
  cases hlength

end ShardedRecords
