import ShardedRecords.Proofs.Wire.RoundTrip

/-!
# The grammar of messages

A message is the spelling of a count and then as many records, each of them two
fields with the spelling of its length in front of each. A number has one spelling in
the fixed encoding and may be padded in base 128. What is read as records is exactly
such a message with anything behind it, and no buffer can be taken apart in two ways.
-/
namespace ShardedRecords

namespace Encoding

/-- The spellings of a record count. -/
def SpellsCount : Encoding → Bytes → Nat → Prop
  | .fixed, bs, n => n < LittleEndian.capacity 8 ∧ bs = LittleEndian.spell 8 n
  | .varint, bs, n => Base128.SpellsWord bs n

/-- The spellings of a field's length. -/
def SpellsLength : Encoding → Bytes → Nat → Prop
  | .fixed, bs, n => n < LittleEndian.capacity 4 ∧ bs = LittleEndian.spell 4 n
  | .varint, bs, n => Base128.SpellsWord bs n

theorem SpellsLength.lt_lengthLimit {e : Encoding} {bs : Bytes} {n : Nat}
    (h : e.SpellsLength bs n) : n < e.lengthLimit := by
  cases e with
  | fixed => exact h.1
  | varint => exact h.lt_size

end Encoding

/-! ## Derivations -/

/-- A field as it stands in a buffer. -/
structure SpelledField where
  lengthBytes : Bytes
  content : Bytes

namespace SpelledField

def bytes (f : SpelledField) : Bytes := f.lengthBytes ++ f.content

def Valid (e : Encoding) (f : SpelledField) : Prop := e.SpellsLength f.lengthBytes f.content.length

end SpelledField

/-- A record as it stands in a buffer. -/
structure SpelledRecord where
  key : SpelledField
  value : SpelledField

namespace SpelledRecord

def bytes (r : SpelledRecord) : Bytes := r.key.bytes ++ r.value.bytes

structure Valid (e : Encoding) (r : SpelledRecord) : Prop where
  key : r.key.Valid e
  value : r.value.Valid e

def record (r : SpelledRecord) : Record := ⟨r.key.content, r.value.content⟩

theorem Valid.fits {e : Encoding} {r : SpelledRecord} (h : r.Valid e) : r.record.Fits e :=
  ⟨h.key.lt_lengthLimit, h.value.lt_lengthLimit⟩

end SpelledRecord

/-- A whole message as it stands in a buffer. -/
structure SpelledMessage where
  countBytes : Bytes
  items : List SpelledRecord

namespace SpelledMessage

def bytes (m : SpelledMessage) : Bytes := m.countBytes ++ m.items.flatMap SpelledRecord.bytes

structure Valid (e : Encoding) (m : SpelledMessage) : Prop where
  count : e.SpellsCount m.countBytes m.items.length
  items : ∀ r ∈ m.items, r.Valid e

def records (m : SpelledMessage) : List Record := m.items.map SpelledRecord.record

end SpelledMessage

/-! ## What each reader accepts -/

namespace Reader

variable {α : Type} {e : Encoding} {bs : Bytes} {n : Nat}

theorem settles_pure_iff {a b : α} : Settles (pure a) bs (.ok b) ↔ bs = [] ∧ a = b := by
  constructor
  · intro h
    have hread := h 0 []
    simp only [Cursor.read_pure, List.append_nil, Prod.mk.injEq, Except.ok.injEq,
      Cursor.mk.injEq] at hread
    exact ⟨hread.2.2, hread.1⟩
  · rintro ⟨rfl, rfl⟩
    exact .pure a

theorem settles_take_iff {front : Bytes} :
    (take n).Settles bs (.ok front) ↔ bs.length = n ∧ bs = front := by
  constructor
  · intro h
    have hread := h 0 []
    rw [Cursor.read_take, List.append_nil, Bytes.cut?_eq] at hread
    by_cases hle : n ≤ bs.length
    · simp only [if_pos hle, Prod.mk.injEq, Except.ok.injEq, Cursor.mk.injEq] at hread
      obtain ⟨hfront, hlen, -⟩ := hread
      have hn : bs.length = n := by omega
      exact ⟨hn, by rw [← hfront, ← hn, List.take_length]⟩
    · simp [if_neg hle] at hread
  · rintro ⟨rfl, rfl⟩
    exact .take bs

theorem settles_littleEndian_iff {width : Nat} : (littleEndian width).Settles bs (.ok n) ↔
    n < LittleEndian.capacity width ∧ bs = LittleEndian.spell width n := by
  constructor
  · intro h
    obtain ⟨front, _, back, rfl, hfront, hback⟩ :=
      ((Incremental.take width).settles_bind_iff fun _ => .pure _).mp h
    obtain ⟨rfl, rfl⟩ := settles_take_iff.mp hfront
    obtain ⟨rfl, rfl⟩ := settles_pure_iff.mp hback
    rw [List.append_nil]
    exact ⟨LittleEndian.value_lt _, (LittleEndian.spell_value _).symm⟩
  · rintro ⟨hn, rfl⟩
    exact .littleEndian_spell hn

theorem settles_base128_iff : base128.Settles bs (.ok n) ↔ Base128.SpellsWord bs n := by
  constructor
  · intro h
    have hread := h 0 []
    rw [Cursor.read_base128, List.append_nil] at hread
    obtain ⟨houtcome, hcursor⟩ := Prod.mk.inj hread
    cases ho : (Base128.scan bs).outcome with
    | value n' =>
      rw [ho] at houtcome
      cases houtcome
      obtain ⟨front, hbs, hspells⟩ := Base128.spellsWord_of_scan ho
      rw [(Cursor.mk.inj hcursor).2, List.append_nil] at hbs
      rwa [hbs]
    | overflow n' => simp [ho] at houtcome
    | cut => simp [ho] at houtcome
  · exact .base128

theorem settles_count_iff : (count e).Settles bs (.ok n) ↔ e.SpellsCount bs n := by
  cases e with
  | fixed => exact settles_littleEndian_iff
  | varint => exact settles_base128_iff

theorem settles_length_iff : (length e).Settles bs (.ok n) ↔ e.SpellsLength bs n := by
  cases e with
  | fixed => exact settles_littleEndian_iff
  | varint => exact settles_base128_iff

theorem settles_field_iff {content : Bytes} : (field e).Settles bs (.ok content) ↔
    ∃ f : SpelledField, f.Valid e ∧ f.bytes = bs ∧ f.content = content := by
  rw [field, (Composed.length e).incremental.settles_bind_iff .take]
  constructor
  · rintro ⟨n, lengthBytes, back, rfl, hlength, htake⟩
    obtain ⟨rfl, rfl⟩ := settles_take_iff.mp htake
    exact ⟨⟨lengthBytes, back⟩, settles_length_iff.mp hlength, rfl, rfl⟩
  · rintro ⟨⟨lengthBytes, content⟩, hvalid, rfl, rfl⟩
    exact ⟨content.length, lengthBytes, content, rfl, settles_length_iff.mpr hvalid, .take content⟩

theorem settles_record_iff {r : Record} : (record e).Settles bs (.ok r) ↔
    ∃ s : SpelledRecord, s.Valid e ∧ s.bytes = bs ∧ s.record = r := by
  constructor
  · intro h
    obtain ⟨_, _, _, rfl, hkey, h⟩ :=
      ((Composed.field e).incremental.settles_bind_iff
        fun _ => (Composed.field e).incremental.bind fun _ => .pure _).mp h
    obtain ⟨_, _, _, rfl, hvalue, h⟩ :=
      ((Composed.field e).incremental.settles_bind_iff fun _ => .pure _).mp h
    obtain ⟨rfl, rfl⟩ := settles_pure_iff.mp h
    obtain ⟨key, hkeyValid, rfl, rfl⟩ := settles_field_iff.mp hkey
    obtain ⟨value, hvalueValid, rfl, rfl⟩ := settles_field_iff.mp hvalue
    exact ⟨⟨key, value⟩, ⟨hkeyValid, hvalueValid⟩, by simp [SpelledRecord.bytes], rfl⟩
  · rintro ⟨s, hvalid, rfl, rfl⟩
    exact (settles_field_iff.mpr ⟨s.key, hvalid.key, rfl, rfl⟩).bind
      (settles_field_iff.mpr ⟨s.value, hvalid.value, rfl, rfl⟩).map

theorem settles_records_iff {rs : List Record} : (records e n).Settles bs (.ok rs) ↔
    ∃ items : List SpelledRecord, items.length = n ∧ (∀ r ∈ items, r.Valid e) ∧
      items.flatMap SpelledRecord.bytes = bs ∧ items.map SpelledRecord.record = rs := by
  induction n generalizing bs rs with
  | zero =>
    rw [records, settles_pure_iff]
    constructor
    · rintro ⟨rfl, rfl⟩
      exact ⟨[], rfl, by simp, rfl, rfl⟩
    · rintro ⟨items, hlength, -, rfl, rfl⟩
      rw [List.length_eq_zero_iff.mp hlength]
      exact ⟨rfl, rfl⟩
  | succ n ih =>
    constructor
    · intro h
      obtain ⟨_, _, _, rfl, hfirst, h⟩ :=
        ((Composed.record e).incremental.settles_bind_iff
          fun _ => (Composed.records e n).incremental.bind fun _ => .pure _).mp h
      obtain ⟨_, _, _, rfl, hothers, h⟩ :=
        ((Composed.records e n).incremental.settles_bind_iff fun _ => .pure _).mp h
      obtain ⟨rfl, rfl⟩ := settles_pure_iff.mp h
      obtain ⟨first, hvalid, rfl, rfl⟩ := settles_record_iff.mp hfirst
      obtain ⟨items, rfl, hitems, rfl, rfl⟩ := ih.mp hothers
      exact ⟨first :: items, rfl, List.forall_mem_cons.mpr ⟨hvalid, hitems⟩, by simp, rfl⟩
    · rintro ⟨items, hlength, hvalid, rfl, rfl⟩
      obtain ⟨first, items, rfl⟩ := List.exists_cons_of_length_eq_add_one hlength
      rw [List.forall_mem_cons] at hvalid
      exact (settles_record_iff.mpr ⟨first, hvalid.1, rfl, rfl⟩).bind
        (ih.mpr ⟨items, Nat.succ.inj hlength, hvalid.2, rfl, rfl⟩).map

theorem settles_message_iff {rs : List Record} : (message e).Settles bs (.ok rs) ↔
    ∃ m : SpelledMessage, m.Valid e ∧ m.bytes = bs ∧ m.records = rs := by
  rw [message, (Composed.count e).incremental.settles_bind_iff
    fun n => (Composed.records e n).incremental]
  constructor
  · rintro ⟨n, countBytes, _, rfl, hcount, hrecords⟩
    obtain ⟨items, rfl, hvalid, rfl, rfl⟩ := settles_records_iff.mp hrecords
    exact ⟨⟨countBytes, items⟩, ⟨settles_count_iff.mp hcount, hvalid⟩, rfl, rfl⟩
  · rintro ⟨m, hvalid, rfl, rfl⟩
    exact ⟨m.items.length, m.countBytes, _, rfl, settles_count_iff.mpr hvalid.count,
      settles_records_iff.mpr ⟨m.items, rfl, hvalid.items, rfl, rfl⟩⟩

end Reader

/-! ## One way to take a buffer apart -/

section Unique

variable {e : Encoding} {rest rest' : Bytes}

theorem SpelledField.Valid.unique {f f' : SpelledField} (h : f.Valid e) (h' : f'.Valid e)
    (heq : f.bytes ++ rest = f'.bytes ++ rest') : f = f' ∧ rest = rest' := by
  obtain ⟨lengthBytes, content⟩ := f
  obtain ⟨lengthBytes', content'⟩ := f'
  simp only [SpelledField.bytes, List.append_assoc] at heq
  obtain ⟨hlength, rfl, hback⟩ := (Reader.settles_length_iff.mpr h).unique
    (Reader.settles_length_iff.mpr h') heq
  obtain ⟨rfl, hrest⟩ := List.append_inj hback (Except.ok.inj hlength)
  exact ⟨rfl, hrest⟩

theorem SpelledRecord.Valid.unique {r r' : SpelledRecord} (h : r.Valid e) (h' : r'.Valid e)
    (heq : r.bytes ++ rest = r'.bytes ++ rest') : r = r' ∧ rest = rest' := by
  obtain ⟨key, value⟩ := r
  obtain ⟨key', value'⟩ := r'
  simp only [SpelledRecord.bytes, List.append_assoc] at heq
  obtain ⟨rfl, hback⟩ := h.key.unique h'.key heq
  obtain ⟨rfl, hrest⟩ := h.value.unique h'.value hback
  exact ⟨rfl, hrest⟩

theorem SpelledRecord.unique_items {items items' : List SpelledRecord}
    (hlength : items.length = items'.length) (h : ∀ r ∈ items, r.Valid e)
    (h' : ∀ r ∈ items', r.Valid e)
    (heq : items.flatMap bytes ++ rest = items'.flatMap bytes ++ rest') :
    items = items' ∧ rest = rest' := by
  induction items generalizing items' with
  | nil =>
    rw [List.length_eq_zero_iff.mp hlength.symm] at heq ⊢
    exact ⟨rfl, heq⟩
  | cons r items ih =>
    obtain ⟨r', items', rfl⟩ := List.exists_cons_of_length_eq_add_one hlength.symm
    rw [List.forall_mem_cons] at h h'
    simp only [List.flatMap_cons, List.append_assoc] at heq
    obtain ⟨rfl, hback⟩ := h.1.unique h'.1 heq
    obtain ⟨rfl, hrest⟩ := ih (Nat.succ.inj hlength) h.2 h'.2 hback
    exact ⟨rfl, hrest⟩

theorem SpelledMessage.Valid.unique {m m' : SpelledMessage} (h : m.Valid e) (h' : m'.Valid e)
    (heq : m.bytes ++ rest = m'.bytes ++ rest') : m = m' ∧ rest = rest' := by
  obtain ⟨countBytes, items⟩ := m
  obtain ⟨countBytes', items'⟩ := m'
  simp only [SpelledMessage.bytes, List.append_assoc] at heq
  obtain ⟨hcount, rfl, hback⟩ := (Reader.settles_count_iff.mpr h.count).unique
    (Reader.settles_count_iff.mpr h'.count) heq
  obtain ⟨rfl, hrest⟩ :=
    SpelledRecord.unique_items (Except.ok.inj hcount) h.items h'.items hback
  exact ⟨rfl, hrest⟩

end Unique

/-! ## What streams and tables accept -/

theorem read_message_eq_ok_iff {e : Encoding} {buf : Bytes} {rs : List Record} :
    ((Cursor.ofBytes buf).read (.message e)).1 = .ok rs ↔
      ∃ m rest, SpelledMessage.Valid e m ∧ m.records = rs ∧ buf = m.bytes ++ rest := by
  constructor
  · intro h
    obtain ⟨front, hbuf, -, hs⟩ := (Reader.Composed.message e).incremental.exists_settles
      (c := Cursor.ofBytes buf) (h ▸ not_truncated_ok rs)
    rw [h] at hs
    obtain ⟨m, hvalid, rfl, hrecords⟩ := Reader.settles_message_iff.mp hs
    exact ⟨m, _, hvalid, hrecords, hbuf⟩
  · rintro ⟨m, rest, hvalid, rfl, rfl⟩
    rw [Cursor.ofBytes, Reader.settles_message_iff.mpr ⟨m, hvalid, rfl, rfl⟩]

namespace RecordStream

/-- The stream of a buffer yields these records, and then nothing and no fault. -/
def Yields (e : Encoding) (buf : Bytes) (rs : List Record) : Prop :=
  ∃ s, ofBytes e buf = .ok s ∧ ∀ i, s.item i = rs[i]?.map .ok

theorem yields_iff_read_message {e : Encoding} {buf : Bytes} {rs : List Record} :
    Yields e buf rs ↔ ((Cursor.ofBytes buf).read (.message e)).1 = .ok rs := by
  have hmessage : (Cursor.ofBytes buf).read (.message e) = _ := Cursor.read_bind ..
  rw [hmessage, Yields, ofBytes]
  rcases (Cursor.ofBytes buf).read (.count e) with ⟨fault | n, c⟩
  · simp
  · simp only [Except.ok.injEq, exists_eq_left']
    constructor
    · intro hitems
      rcases hread : c.read (.records e n) with ⟨fault | rs', c'⟩
      · obtain ⟨i, hi⟩ := exists_item_of_read_records_error (s := ⟨e, n, n, c⟩) hread
        rw [hitems i] at hi
        cases h : rs[i]? <;> simp [h] at hi
      · have hitems' := item_of_read_records (s := ⟨e, n, n, c⟩) hread
        refine congrArg Except.ok (List.ext_getElem? fun i => ?_)
        have hi := (hitems' i).symm.trans (hitems i)
        exact Option.map_injective (fun _ _ h => Except.ok.inj h) hi
    · intro h
      exact item_of_read_records (s := ⟨e, n, n, c⟩) (Prod.ext h rfl)

/-- Records that were written are yielded again. -/
theorem yields_of_encode {e : Encoding} {rs : List Record} {buf : Bytes}
    (h : encode e (rs.map Record.entry) = .ok buf) : Yields e buf rs := by
  obtain ⟨hfits, hsize, rfl⟩ := encode_map_entry_eq_ok_iff.mp h
  have hcount := Nat.lt_of_le_of_lt (Record.length_le_length_flatMap_bytes e rs) hsize
  have hmessage := Reader.Settles.messageBytes hcount hfits 0 []
  rw [List.append_nil] at hmessage
  exact yields_iff_read_message.mpr (congrArg Prod.fst hmessage)

end RecordStream

namespace Table

theorem getElem?_ofRecords (rs : List Record) (key : Bytes) :
    (ofRecords rs)[key]? = (rs.map Record.entry).reverse.lookup key := by
  rw [ofRecords_eq_lastByKeyMap, getElem?_lastByKeyMap]

theorem fits_of_decode {e : Encoding} {buf : Bytes} {t : Table} (h : decode e buf = .ok t)
    {key value : Bytes} (hkey : t[key]? = some value) :
    key.length < e.lengthLimit ∧ value.length < e.lengthLimit := by
  rw [decode_eq] at h
  obtain ⟨rs, hread, rfl⟩ := Except.map_eq_ok.mp h
  obtain ⟨m, -, hvalid, rfl, -⟩ := read_message_eq_ok_iff.mp hread
  rw [getElem?_ofRecords] at hkey
  obtain ⟨before, after, hsplit, -⟩ := List.lookup_eq_some_iff.mp hkey
  have hmem : (key, value) ∈ (m.records.map Record.entry).reverse := by simp [hsplit]
  simp only [List.mem_reverse, SpelledMessage.records, List.map_map, List.mem_map,
    Function.comp_apply] at hmem
  obtain ⟨r, hr, hentry⟩ := hmem
  have hfits := (hvalid.items r hr).fits
  cases hentry
  exact ⟨hfits.key, hfits.value⟩

end Table

/-- A stream yields records exactly if the buffer begins with a message of them. A
buffer begins with one message at most, and it can be decoded exactly if it begins
with one: to the table of the last value of each key. -/
theorem yields_iff_spelledMessage (e : Encoding) (buf : Bytes) :
    (∀ rs, RecordStream.Yields e buf rs ↔
      ∃ m rest, SpelledMessage.Valid e m ∧ m.records = rs ∧ buf = m.bytes ++ rest) ∧
    (∀ m m' rest rest', SpelledMessage.Valid e m → SpelledMessage.Valid e m' →
      buf = m.bytes ++ rest → buf = m'.bytes ++ rest' → m = m' ∧ rest = rest') ∧
    (∀ m rest, SpelledMessage.Valid e m → buf = m.bytes ++ rest →
      ∃ t, Table.decode e buf = .ok t ∧
        ∀ key, t[key]? = (m.records.map Record.entry).reverse.lookup key) ∧
    ∀ t, Table.decode e buf = .ok t →
      ∃ m rest, SpelledMessage.Valid e m ∧ buf = m.bytes ++ rest := by
  refine ⟨fun rs => ?_, ?_, ?_, ?_⟩
  · rw [RecordStream.yields_iff_read_message, read_message_eq_ok_iff]
  · intro m m' rest rest' hvalid hvalid' hbuf hbuf'
    exact hvalid.unique hvalid' (hbuf.symm.trans hbuf')
  · intro m rest hvalid hbuf
    have hread := read_message_eq_ok_iff.mpr ⟨m, rest, hvalid, rfl, hbuf⟩
    refine ⟨Table.ofRecords m.records, ?_, Table.getElem?_ofRecords _⟩
    rw [Table.decode_eq, hread]
    rfl
  · intro t h
    rw [Table.decode_eq] at h
    obtain ⟨rs, hread, -⟩ := Except.map_eq_ok.mp h
    obtain ⟨m, rest, hvalid, -, hbuf⟩ := read_message_eq_ok_iff.mp hread
    exact ⟨m, rest, hvalid, hbuf⟩

/-- The count and the length of the empty value are padded, and a byte stands behind the
message. -/
theorem yields_iff_spelledMessage_padded :
    let m : SpelledMessage := ⟨[0x81, 0], [⟨⟨[1], [5]⟩, ⟨[0x80, 0], []⟩⟩]⟩
    m.Valid .varint ∧ RecordStream.Yields .varint (m.bytes ++ [9]) [⟨[5], []⟩] ∧
      (∀ m' rest', SpelledMessage.Valid .varint m' → m.bytes ++ [9] = m'.bytes ++ rest' → m = m') ∧
      ∃ t, Table.decode .varint (m.bytes ++ [9]) = .ok t ∧ t[([5] : Bytes)]? = some [] := by
  intro m
  have hcount : Base128.SpellsWord [0x81, 0] 1 :=
    ⟨.more (by decide) (.last (by decide)), by decide, by decide⟩
  have hkey : Base128.SpellsWord [1] 1 := ⟨.last (by decide), by decide, by decide⟩
  have hvalue : Base128.SpellsWord [0x80, 0] 0 :=
    ⟨.more (by decide) (.last (by decide)), by decide, by decide⟩
  have hvalid : m.Valid .varint :=
    ⟨hcount, fun r hr => List.mem_singleton.mp hr ▸ ⟨hkey, hvalue⟩⟩
  obtain ⟨hyields, hunique, hdecode, -⟩ := yields_iff_spelledMessage .varint (m.bytes ++ [9])
  obtain ⟨t, ht, hlookup⟩ := hdecode m [9] hvalid rfl
  refine ⟨hvalid, (hyields _).mpr ⟨m, [9], hvalid, rfl, rfl⟩, ?_, t, ht, hlookup [5]⟩
  intro m' rest' hvalid' hbuf
  exact (hunique m m' [9] rest' hvalid hvalid' rfl hbuf).1

end ShardedRecords
