import ShardedRecords.Proofs.LastByKey
import ShardedRecords.Proofs.Wire.Messages

/-!
# Round trips

What was written is read back: by a stream the records in their order, by a
container the last value of each key, and by a table that was written the table
itself. Bytes behind the message make no difference and are not read.
-/
namespace ShardedRecords

open RecordStream

/-- Records of which every field has a length that the encoding can spell, and which
take less than 2^64 bytes together, are written. The stream of what is written
declares their number, yields them in order and then nothing, and stays behind the
last of them. A container is left with the last value of each key. -/
theorem encode_then_read (e : Encoding) (rs : List Record) (trailing : Bytes)
    (hfields : e = .fixed → ∀ r ∈ rs, r.key.length < UInt32.size ∧ r.value.length < UInt32.size)
    (hsize : (e.messageBytes rs).length < UInt64.size) :
    ∃ buf s, encode e (rs.map Record.entry) = .ok buf ∧
      RecordStream.ofBytes e (buf ++ trailing) = .ok s ∧
      s.declared = rs.length ∧
      (∀ i, s.item i = rs[i]?.map .ok) ∧
      (∀ i, rs.length ≤ i → (s.skip i).cursor = ⟨buf.length, trailing⟩) ∧
      ∀ (σ : Type) [LawfulSink σ], ∃ sink : σ, decodeInto σ e (buf ++ trailing) = .ok sink ∧
        ∀ key, LawfulSink.lookup sink key = (rs.map Record.entry).reverse.lookup key := by
  have hbody : (rs.flatMap (Record.bytes e)).length < UInt64.size := by
    rw [Encoding.messageBytes, List.length_append] at hsize
    omega
  have hcount : rs.length < UInt64.size :=
    Nat.lt_of_le_of_lt (Record.length_le_length_flatMap_bytes e rs) hbody
  have hfits : ∀ r ∈ rs, r.Fits e := Record.fits_of_length_flatMap hfields hbody
  have hmessage := Reader.Settles.messageBytes hcount hfits 0 trailing
  have hheader := Reader.Settles.countBytes (e := e) hcount 0
    (rs.flatMap (Record.bytes e) ++ trailing)
  rw [← List.append_assoc] at hheader
  have hrecords := Reader.Settles.recordsBytes hfits (0 + (e.countBytes rs.length).length) trailing
  refine ⟨e.messageBytes rs, _, encode_of_fits hfits hbody, ofBytes_of_read_count hheader, rfl,
    item_of_read_records hrecords, fun i hi => ?_, fun σ _ => ?_⟩
  · rw [skip_of_left_le hi, hrecords]
    simp [Encoding.messageBytes]
  · obtain ⟨room, hdecode⟩ := decodeInto_eq (σ := σ) e (e.messageBytes rs ++ trailing)
    refine ⟨_, hdecode.trans (congrArg (Except.map _) (congrArg Prod.fst hmessage)), fun key => ?_⟩
    rw [LawfulSink.lookup_insertAll, LawfulSink.lookup_withCapacity, Option.or_none]

/-- A repeated key, empty fields and a byte behind the message. -/
theorem encode_then_read_repeated_key :
    ∃ buf s, encode .varint [(([1] : Bytes), ([2] : Bytes)), ([], []), ([1], [3])] = .ok buf ∧
      RecordStream.ofBytes .varint (buf ++ [9]) = .ok s ∧
      s.declared = 3 ∧
      (∀ i, s.item i = ([⟨[1], [2]⟩, ⟨[], []⟩, ⟨[1], [3]⟩] : List Record)[i]?.map .ok) ∧
      (∀ i, 3 ≤ i → (s.skip i).cursor = ⟨buf.length, [9]⟩) ∧
      ∀ (σ : Type) [LawfulSink σ], ∃ sink : σ, decodeInto σ .varint (buf ++ [9]) = .ok sink ∧
        ∀ key, LawfulSink.lookup sink key =
          [(([1] : Bytes), ([3] : Bytes)), ([], []), ([1], [2])].lookup key :=
  encode_then_read .varint [⟨[1], [2]⟩, ⟨[], []⟩, ⟨[1], [3]⟩] [9] (fun h => nomatch h)
    (by decide +kernel)

namespace Table

theorem ofRecords_eq_lastByKeyMap (rs : List Record) :
    ofRecords rs = lastByKeyMap (rs.map Record.entry) := by
  rw [lastByKeyMap, List.foldl_map]
  rfl

/-- The bindings of a table, one record for each key. -/
def records (t : Table) : List Record := t.toList.map fun binding => ⟨binding.1, binding.2⟩

end Table

namespace RecordOrder

def records (order : RecordOrder) (t : Table) : List Record :=
  (order.list t).map fun binding => ⟨binding.1, binding.2⟩

theorem records_perm (order : RecordOrder) (t : Table) : (order.records t).Perm t.records :=
  (order.perm t).map _

end RecordOrder

namespace Table

theorem map_entry_records (t : Table) : t.records.map Record.entry = t.toList := by
  simp [records, Record.entry, Function.comp_def]

theorem mem_records_iff {t : Table} {r : Record} : r ∈ t.records ↔ t[r.key]? = some r.value := by
  simp only [records, List.mem_map, Prod.exists, Std.ExtTreeMap.mem_toList_iff_getElem?_eq_some]
  constructor
  · rintro ⟨key, value, h, rfl⟩
    exact h
  · intro h
    exact ⟨r.key, r.value, h, rfl⟩

theorem encodeIn_eq (order : RecordOrder) (e : Encoding) (t : Table) :
    t.encodeIn order e = ShardedRecords.encode e ((order.records t).map Record.entry) := by
  simp [encodeIn, RecordOrder.records, Record.entry, Function.comp_def]

theorem encode_eq (e : Encoding) (t : Table) :
    t.encode e = ShardedRecords.encode e (t.records.map Record.entry) :=
  encodeIn_eq .ascending e t

/-- The blob reads back as the table, and declares one record for each key. -/
structure HeldBy (e : Encoding) (t : Table) (blob : Bytes) : Prop where
  decode : Table.decode e blob = .ok t
  declared : ∃ s, RecordStream.ofBytes e blob = .ok s ∧ s.declared = t.size

/-- A message of the table holds it, in whatever order the records are written. -/
theorem heldBy_of_encode_perm {e : Encoding} {t : Table} {rs : List Record} {buf : Bytes}
    (hrs : rs.Perm t.records) (h : ShardedRecords.encode e (rs.map Record.entry) = .ok buf) :
    t.HeldBy e buf := by
  obtain ⟨hfits, hsize, rfl⟩ := encode_map_entry_eq_ok_iff.mp h
  have hcount := Nat.lt_of_le_of_lt (Record.length_le_length_flatMap_bytes e rs) hsize
  have hmessage := Reader.Settles.messageBytes hcount hfits 0 []
  have hheader := Reader.Settles.countBytes (e := e) hcount 0 (rs.flatMap (Record.bytes e))
  rw [List.append_nil] at hmessage
  constructor
  · rw [decode_eq, Cursor.ofBytes, hmessage]
    refine congrArg Except.ok ?_
    rw [ofRecords_eq_lastByKeyMap]
    exact lastByKeyMap_of_perm (t.map_entry_records ▸ hrs.map Record.entry)
  · refine ⟨_, ofBytes_of_read_count hheader, ?_⟩
    simpa [records] using hrs.length_eq

/-- Every field fits the encoding, and so does the size of the whole message. -/
structure Writable (e : Encoding) (t : Table) : Prop where
  fits : ∀ r ∈ t.records, r.Fits e
  size : (t.records.flatMap (Record.bytes e)).length < UInt64.size

theorem exists_encode_perm_iff {e : Encoding} {t : Table} {rs : List Record}
    (hrs : rs.Perm t.records) :
    (∃ buf, ShardedRecords.encode e (rs.map Record.entry) = .ok buf) ↔ t.Writable e := by
  have hlength := (hrs.flatMap_right (Record.bytes e)).length_eq
  constructor
  · rintro ⟨buf, h⟩
    obtain ⟨hfits, hsize, -⟩ := encode_map_entry_eq_ok_iff.mp h
    exact ⟨fun r hr => hfits r (hrs.mem_iff.mpr hr), hlength ▸ hsize⟩
  · intro h
    exact ⟨_, encode_map_entry_eq_ok_iff.mpr
      ⟨fun r hr => h.fits r (hrs.mem_iff.mp hr), hlength.symm ▸ h.size, rfl⟩⟩

theorem length_of_encode_perm {e : Encoding} {rs rs' : List Record} {buf buf' : Bytes}
    (hrs : rs'.Perm rs) (h : ShardedRecords.encode e (rs.map Record.entry) = .ok buf)
    (h' : ShardedRecords.encode e (rs'.map Record.entry) = .ok buf') :
    buf'.length = buf.length := by
  obtain ⟨-, -, rfl⟩ := encode_map_entry_eq_ok_iff.mp h
  obtain ⟨-, -, rfl⟩ := encode_map_entry_eq_ok_iff.mp h'
  simp only [Encoding.messageBytes, List.length_append, hrs.length_eq,
    (hrs.flatMap_right (Record.bytes e)).length_eq]

theorem exists_encodeIn_iff (order : RecordOrder) {e : Encoding} {t : Table} :
    (∃ buf, t.encodeIn order e = .ok buf) ↔ t.Writable e := by
  rw [encodeIn_eq]
  exact exists_encode_perm_iff (order.records_perm t)

theorem exists_encode_iff {e : Encoding} {t : Table} :
    (∃ buf, t.encode e = .ok buf) ↔ t.Writable e := exists_encodeIn_iff .ascending

theorem heldBy_of_encodeIn {order : RecordOrder} {e : Encoding} {t : Table} {buf : Bytes}
    (h : t.encodeIn order e = .ok buf) : t.HeldBy e buf :=
  heldBy_of_encode_perm (order.records_perm t) (t.encodeIn_eq order e ▸ h)

theorem heldBy_of_encode {e : Encoding} {t : Table} {buf : Bytes} (h : t.encode e = .ok buf) :
    t.HeldBy e buf := heldBy_of_encodeIn h

end Table

end ShardedRecords
