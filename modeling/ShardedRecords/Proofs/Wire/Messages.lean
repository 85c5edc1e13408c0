import Mathlib.Data.List.Flatten
import ShardedRecords.Proofs.Answers
import ShardedRecords.Proofs.Wire.Streams

/-!
# Written messages

What is written is the spelling of the count and then of each record, and these
bytes settle the reads that undo them. A message is only written if its size is
a 64-bit number, which leaves every count and every length in it readable.
-/
namespace ShardedRecords

variable {α β : Type} [HasBytes α] [HasBytes β]

namespace Encoding

/-- No field may be this long or longer. -/
def lengthLimit : Encoding → Nat
  | .fixed => UInt32.size
  | .varint => UInt64.size

/-- The records behind their count. -/
def messageBytes (e : Encoding) (rs : List Record) : Bytes :=
  e.countBytes rs.length ++ rs.flatMap (Record.bytes e)

theorem lengthWidth_of_lt {e : Encoding} {n : Nat} (h : n < e.lengthLimit) :
    e.lengthWidth n = .ok (e.lengthBytes n).length := by
  cases e with
  | fixed =>
    have hcapacity : n < LittleEndian.capacity 4 := h
    rw [lengthWidth, if_pos hcapacity, lengthBytes, LittleEndian.length_spell]
  | varint => rw [lengthWidth, lengthBytes, Base128.length_spell]

theorem lt_lengthLimit_of_lengthWidth {e : Encoding} {n width : Nat}
    (h : e.lengthWidth n = .ok width) (hn : n < UInt64.size) : n < e.lengthLimit := by
  cases e with
  | fixed =>
    rw [lengthWidth] at h
    split at h
    · assumption
    · cases h
  | varint => exact hn

theorem length_lengthBytes_pos (e : Encoding) (n : Nat) : 0 < (e.lengthBytes n).length := by
  cases e with
  | fixed => simp [lengthBytes]
  | varint =>
    rw [lengthBytes, Base128.length_spell]
    exact Base128.width_pos n

end Encoding

namespace Record

/-- Both fields are short enough to be written and read back. -/
structure Fits (e : Encoding) (r : Record) : Prop where
  key : r.key.length < e.lengthLimit
  value : r.value.length < e.lengthLimit

variable {e : Encoding} {r : Record} {rs : List Record}

theorem length_bytes_eq (e : Encoding) (r : Record) : (r.bytes e).length =
    (e.lengthBytes r.key.length).length + r.key.length +
      ((e.lengthBytes r.value.length).length + r.value.length) := by
  simp only [bytes, Encoding.fieldBytes, List.length_append]

theorem Fits.width_eq (h : r.Fits e) : r.width e = .ok (r.bytes e).length := by
  rw [width, Encoding.lengthWidth_of_lt h.key, Encoding.lengthWidth_of_lt h.value, length_bytes_eq]
  rfl

theorem fits_of_width {n : Nat} (h : r.width e = .ok n) (hn : n < UInt64.size) : r.Fits e := by
  have hlen := length_bytes h
  rw [length_bytes_eq] at hlen
  obtain ⟨k, hk, h⟩ := Except.bind_eq_ok.mp h
  obtain ⟨v, hv, -⟩ := Except.bind_eq_ok.mp h
  exact ⟨Encoding.lt_lengthLimit_of_lengthWidth hk (by omega),
    Encoding.lt_lengthLimit_of_lengthWidth hv (by omega)⟩

/-- No record is written in nothing, so there are no more of them than bytes. -/
theorem length_le_length_flatMap_bytes (e : Encoding) (rs : List Record) :
    rs.length ≤ (rs.flatMap (bytes e)).length := by
  induction rs with
  | nil => exact Nat.le_refl 0
  | cons r rs ih =>
    have hk := e.length_lengthBytes_pos r.key.length
    rw [List.flatMap_cons, List.length_append, List.length_cons, length_bytes_eq]
    omega

/-- Of records that take less than 2^64 bytes together, only the fixed encoding can
refuse a field. -/
theorem fits_of_length_flatMap
    (hfields : e = .fixed → ∀ r ∈ rs, r.key.length < UInt32.size ∧ r.value.length < UInt32.size)
    (hbody : (rs.flatMap (bytes e)).length < UInt64.size) : ∀ r ∈ rs, r.Fits e := by
  intro r hr
  cases e with
  | fixed =>
    obtain ⟨hkey, hvalue⟩ := hfields rfl r hr
    exact ⟨hkey, hvalue⟩
  | varint =>
    have hle := ((List.singleton_sublist.mpr hr).flatMap (bytes .varint)).length_le
    rw [List.flatMap_singleton, length_bytes_eq] at hle
    have hkey : r.key.length < UInt64.size := by omega
    have hvalue : r.value.length < UInt64.size := by omega
    exact ⟨hkey, hvalue⟩

end Record

/-! ## Plans -/

namespace Plan

variable {e : Encoding}

theorem entry_eq_ok {index width : Nat} {key : α} {value : β} {r : Record}
    (h : entry e index key value = .ok (r, width)) :
    HasBytes.bytes? key = some r.key ∧ HasBytes.bytes? value = some r.value ∧
      r.width e = .ok width := by
  rw [entry] at h
  cases hk : HasBytes.bytes? key with
  | none =>
    rw [hk] at h
    cases h
  | some k => cases hv : HasBytes.bytes? value with
    | none =>
      rw [hk, hv] at h
      cases h
    | some v =>
      rw [hk, hv] at h
      obtain ⟨n, hn, h⟩ := Except.map_eq_ok.mp h
      cases h
      exact ⟨rfl, rfl, hn⟩

theorem addSize_eq_ok {total width sum : Nat} (h : addSize e total width = .ok sum) :
    sum = total + width ∧ sum < UInt64.size := by
  rw [addSize] at h
  split at h
  · cases h
    exact ⟨rfl, by assumption⟩
  · cases h

/-- A plan holds the bytes of every entry, all of which can be read back, and
their exact size. -/
theorem of_ofEntriesFrom_eq_ok {index total : Nat} {entries : List (α × β)} {p : Plan}
    (h : ofEntriesFrom e index total entries = .ok p) (ht : total < UInt64.size) :
    p.encoding = e ∧
      entries.map (fun entry => (HasBytes.bytes? entry.1, HasBytes.bytes? entry.2)) =
        p.records.map (fun r => (some r.key, some r.value)) ∧
      (∀ r ∈ p.records, r.Fits e) ∧
      p.bodyLength = total + (p.records.flatMap (Record.bytes e)).length ∧
      p.bodyLength < UInt64.size := by
  induction entries generalizing index total p with
  | nil =>
    cases h
    exact ⟨rfl, rfl, by simp, rfl, ht⟩
  | cons head entries ih =>
    obtain ⟨key, value⟩ := head
    obtain ⟨⟨r, width⟩, hentry, h⟩ := Except.bind_eq_ok.mp h
    obtain ⟨sum, hsum, h⟩ := Except.bind_eq_ok.mp h
    obtain ⟨rest, hrest, h⟩ := Except.bind_eq_ok.mp h
    cases h
    obtain ⟨hkey, hvalue, hwidth⟩ := entry_eq_ok hentry
    obtain ⟨rfl, hlt⟩ := addSize_eq_ok hsum
    obtain ⟨hencoding, hentries, hfits, hbody, hbound⟩ := ih hrest hlt
    have hr : r.Fits e := Record.fits_of_width hwidth (by omega)
    refine ⟨hencoding, ?_, List.forall_mem_cons.mpr ⟨hr, hfits⟩, ?_, hbound⟩
    · rw [List.map_cons, List.map_cons, hentries, hkey, hvalue]
    · rw [hbody, List.flatMap_cons, List.length_append, Record.length_bytes hwidth, Nat.add_assoc]

theorem ofEntriesFrom_of_fits {rs : List Record} (hfits : ∀ r ∈ rs, r.Fits e) (index : Nat)
    {total : Nat} (hsize : total + (rs.flatMap (Record.bytes e)).length < UInt64.size) :
    ofEntriesFrom e index total (rs.map Record.entry) =
      .ok ⟨e, rs, total + (rs.flatMap (Record.bytes e)).length⟩ := by
  induction rs generalizing index total with
  | nil => rfl
  | cons r rs ih =>
    rw [List.flatMap_cons, List.length_append, ← Nat.add_assoc] at hsize ⊢
    rw [List.forall_mem_cons] at hfits
    have hentry : entry e index r.key r.value = .ok (r, (r.bytes e).length) := by
      change (Record.width e r).map _ = _
      rw [hfits.1.width_eq]
      rfl
    have hsum : addSize e total (r.bytes e).length = .ok (total + (r.bytes e).length) := by
      rw [addSize, if_pos (by omega)]
    rw [List.map_cons, Record.entry, ofEntriesFrom, hentry]
    simp only [bind, Except.bind, hsum, ih hfits.2 (index + 1) hsize]
    rfl

end Plan

theorem encode_of_fits {e : Encoding} {rs : List Record} (hfits : ∀ r ∈ rs, r.Fits e)
    (hsize : (rs.flatMap (Record.bytes e)).length < UInt64.size) :
    encode e (rs.map Record.entry) = .ok (e.messageBytes rs) := by
  rw [encode, Plan.ofEntries, Plan.ofEntriesFrom_of_fits hfits 0 (by simpa using hsize)]
  rfl

theorem encode_eq_ok {e : Encoding} {entries : List (α × β)} {buf : Bytes}
    (h : encode e entries = .ok buf) :
    ∃ rs : List Record,
      entries.map (fun entry => (HasBytes.bytes? entry.1, HasBytes.bytes? entry.2)) =
        rs.map (fun r => (some r.key, some r.value)) ∧
      (∀ r ∈ rs, r.Fits e) ∧ (rs.flatMap (Record.bytes e)).length < UInt64.size ∧
      buf = e.messageBytes rs := by
  obtain ⟨p, hp, rfl⟩ := Except.map_eq_ok.mp h
  obtain ⟨hencoding, hentries, hfits, hbody, hbound⟩ := Plan.of_ofEntriesFrom_eq_ok hp (by decide)
  refine ⟨p.records, hentries, hfits, by omega, ?_⟩
  rw [Plan.toBytes, hencoding]
  rfl

theorem encode_map_entry_eq_ok_iff {e : Encoding} {rs : List Record} {buf : Bytes} :
    encode e (rs.map Record.entry) = .ok buf ↔ (∀ r ∈ rs, r.Fits e) ∧
      (rs.flatMap (Record.bytes e)).length < UInt64.size ∧ buf = e.messageBytes rs := by
  constructor
  · intro h
    obtain ⟨rs', hentries, hfits, hsize, rfl⟩ := encode_eq_ok h
    have hinj : Function.Injective fun r : Record => (some r.key, some r.value) := by
      rintro ⟨k, v⟩ ⟨k', v'⟩ heq
      cases heq
      rfl
    have hrs : rs = rs' := by
      apply hinj.list_map
      rw [← hentries, List.map_map]
      rfl
    subst hrs
    exact ⟨hfits, hsize, rfl⟩
  · rintro ⟨hfits, hsize, rfl⟩
    exact encode_of_fits hfits hsize

/-! ## Reading back -/

namespace Reader.Settles

variable {e : Encoding}

theorem countBytes {n : Nat} (hn : n < UInt64.size) :
    (count e).Settles (e.countBytes n) (.ok n) := by
  cases e with
  | fixed => exact littleEndian_spell hn
  | varint => exact base128 (Base128.spellsWord_spell hn)

theorem lengthBytes {n : Nat} (hn : n < e.lengthLimit) :
    (length e).Settles (e.lengthBytes n) (.ok n) := by
  cases e with
  | fixed => exact littleEndian_spell hn
  | varint => exact base128 (Base128.spellsWord_spell hn)

theorem fieldBytes {bs : Bytes} (h : bs.length < e.lengthLimit) :
    (field e).Settles (e.fieldBytes bs) (.ok bs) :=
  (lengthBytes h).bind (take bs)

theorem recordBytes {r : Record} (h : r.Fits e) : (record e).Settles (r.bytes e) (.ok r) :=
  (fieldBytes h.key).bind (fieldBytes h.value).map

theorem recordsBytes {rs : List Record} (h : ∀ r ∈ rs, r.Fits e) :
    (records e rs.length).Settles (rs.flatMap (Record.bytes e)) (.ok rs) := by
  induction rs with
  | nil => exact pure []
  | cons r rs ih =>
    rw [List.forall_mem_cons] at h
    exact (recordBytes h.1).bind (ih h.2).map

theorem messageBytes {rs : List Record} (hcount : rs.length < UInt64.size)
    (h : ∀ r ∈ rs, r.Fits e) : (message e).Settles (e.messageBytes rs) (.ok rs) :=
  (countBytes hcount).bind (recordsBytes h)

end Reader.Settles

end ShardedRecords
