import Mathlib.Algebra.BigOperators.Ring.Finset
import Mathlib.Tactic.TFAE
import ShardedRecords.Proofs.Wire.Messages

/-!
# Sizing and writing

A message is sized before anything of it is written, and every check is made while it is
sized. The first entry that does not pass decides the error. What passes is written in exactly
as many bytes as it was sized, whatever kind of value its bytes were taken from.
-/
namespace ShardedRecords

variable {α β α' β' : Type} [HasBytes α] [HasBytes β] [HasBytes α'] [HasBytes β']
variable {e : Encoding} {f : WireError}

/-! ## Sizes -/

namespace Encoding

variable {n : Nat}

theorem lengthWidth_eq_error_iff : e.lengthWidth n = .error f ↔
    e = .fixed ∧ UInt32.size ≤ n ∧ f = .lengthOverflow .fixed n := by
  cases e with
  | fixed =>
    have hlimit : n < LittleEndian.capacity 4 ↔ ¬ UInt32.size ≤ n := Nat.not_le.symm
    simp only [lengthWidth, hlimit, ite_not]
    split <;> simp [*, eq_comm]
  | varint => simp [lengthWidth]

/-- The bytes of a field's length, if the encoding can spell it. -/
def prefixWidth : Encoding → Nat → Nat
  | .fixed, _ => 4
  | .varint, n => Base128.width n

theorem lengthWidth_eq_prefixWidth (h : n < e.lengthLimit) :
    e.lengthWidth n = .ok (e.prefixWidth n) := by
  cases e with
  | fixed => exact if_pos h
  | varint => rfl

theorem length_fieldBytes (e : Encoding) (bs : Bytes) :
    (e.fieldBytes bs).length = e.prefixWidth bs.length + bs.length := by
  cases e with
  | fixed => simp [fieldBytes, lengthBytes, prefixWidth]
  | varint => simp [fieldBytes, lengthBytes, prefixWidth]

/-- What is left of a length by the cast to the word that is written. -/
def castLength : Encoding → Nat → Nat
  | .fixed, n => (UInt32.ofNat n).toNat
  | .varint, n => (UInt64.ofNat n).toNat

theorem castLength_eq (h : n < e.lengthLimit) : e.castLength n = n := by
  cases e with
  | fixed => exact UInt32.toNat_ofNat_of_lt' h
  | varint => exact UInt64.toNat_ofNat_of_lt' h

/-- What a field takes. One that is no byte sequence takes nothing. -/
def fieldSize (e : Encoding) (a : α) : Nat :=
  match HasBytes.bytes? a with
  | some bs => (e.fieldBytes bs).length
  | none => 0

/-- What all entries take together, behind their count. -/
def entriesSize (e : Encoding) (entries : List (α × β)) : Nat :=
  (entries.map fun entry => e.fieldSize entry.1 + e.fieldSize entry.2).sum

theorem entriesSize_map_entry (e : Encoding) (rs : List Record) :
    e.entriesSize (rs.map Record.entry) = (rs.flatMap (Record.bytes e)).length := by
  induction rs with
  | nil => rfl
  | cons r rs ih =>
    unfold entriesSize at ih ⊢
    simp only [List.map_cons, List.sum_cons, ih, List.flatMap_cons, List.length_append,
      Record.bytes]
    rfl

end Encoding

namespace Plan

theorem width_eq_fieldSize {index width : Nat} {key : α} {value : β} {r : Record}
    (h : entry e index key value = .ok (r, width)) :
    width = e.fieldSize key + e.fieldSize value := by
  obtain ⟨hkey, hvalue, hwidth⟩ := entry_eq_ok h
  unfold Encoding.fieldSize
  simp only [hkey, hvalue, ← Record.length_bytes hwidth, Record.bytes, List.length_append]

/-! ## The checks -/

/-- What the checks see of an entry: the bytes of its key and of its value. -/
def seen (entry : α × β) : Option Bytes × Option Bytes :=
  (HasBytes.bytes? entry.1, HasBytes.bytes? entry.2)

/-- A field is missing, or its length is more than the fixed encoding can spell. -/
def Unwritable (e : Encoding) (entry : Option Bytes × Option Bytes) : Prop :=
  entry.1 = none ∨ entry.2 = none ∨ e = .fixed ∧
    ∃ field, (entry.1 = some field ∨ entry.2 = some field) ∧ UInt32.size ≤ field.length

/-- Why the entry at a position is not written. An entry of which several things are wrong
is refused for the one that stands first here. -/
inductive Refused (index : Nat) : Encoding → Option Bytes × Option Bytes → WireError → Prop
  | missingKey {e value} : Refused index e (none, value) (.notBytes index .key)
  | missingValue {e key} : Refused index e (some key, none) (.notBytes index .value)
  | oversizedKey {key value} (hkey : UInt32.size ≤ key.length) :
    Refused index .fixed (some key, some value) (.lengthOverflow .fixed key.length)
  | oversizedValue {key value} (hkey : key.length < UInt32.size)
    (hvalue : UInt32.size ≤ value.length) :
    Refused index .fixed (some key, some value) (.lengthOverflow .fixed value.length)

theorem exists_refused_iff (index : Nat) {entry : Option Bytes × Option Bytes} :
    (∃ f, Refused index e entry f) ↔ Unwritable e entry := by
  constructor
  · rintro ⟨f, h⟩
    cases h with
    | missingKey => exact .inl rfl
    | missingValue => exact .inr (.inl rfl)
    | oversizedKey hkey => exact .inr (.inr ⟨rfl, _, .inl rfl, hkey⟩)
    | oversizedValue _ hvalue => exact .inr (.inr ⟨rfl, _, .inr rfl, hvalue⟩)
  · obtain ⟨_ | key, _ | value⟩ := entry
    · exact fun _ => ⟨_, .missingKey⟩
    · exact fun _ => ⟨_, .missingKey⟩
    · exact fun _ => ⟨_, .missingValue⟩
    · rintro (h | h | ⟨rfl, field, hfield, hlimit⟩)
      · cases h
      · cases h
      · by_cases hkey : UInt32.size ≤ key.length
        · exact ⟨_, .oversizedKey hkey⟩
        · rcases hfield with hfield | hfield
          · cases hfield
            exact absurd hlimit hkey
          · cases hfield
            exact ⟨_, .oversizedValue (Nat.lt_of_not_le hkey) hlimit⟩

theorem width_eq_error_iff {index : Nat} {r : Record} :
    r.width e = .error f ↔ Refused index e (some r.key, some r.value) f := by
  constructor
  · intro h
    rcases Except.bind_eq_error.mp h with hkey | ⟨_, hkey, h⟩
    · obtain ⟨rfl, hlimit, rfl⟩ := Encoding.lengthWidth_eq_error_iff.mp hkey
      exact .oversizedKey hlimit
    · rcases Except.bind_eq_error.mp h with hvalue | ⟨_, -, h⟩
      · obtain ⟨rfl, hlimit, rfl⟩ := Encoding.lengthWidth_eq_error_iff.mp hvalue
        apply Refused.oversizedValue _ hlimit
        apply Nat.lt_of_not_le
        intro hkeyLimit
        have hrefused := Encoding.lengthWidth_eq_error_iff.mpr ⟨rfl, hkeyLimit, rfl⟩
        cases hkey.symm.trans hrefused
      · cases h
  · intro h
    cases h with
    | oversizedKey hkey =>
      apply Except.bind_eq_error.mpr
      exact .inl (Encoding.lengthWidth_eq_error_iff.mpr ⟨rfl, hkey, rfl⟩)
    | oversizedValue hkey hvalue =>
      have hwidth := Encoding.lengthWidth_eq_prefixWidth (e := .fixed) hkey
      apply Except.bind_eq_error.mpr
      refine .inr ⟨_, hwidth, Except.bind_eq_error.mpr (.inl ?_)⟩
      exact Encoding.lengthWidth_eq_error_iff.mpr ⟨rfl, hvalue, rfl⟩

theorem entry_eq_error_iff {index : Nat} {key : α} {value : β} :
    entry e index key value = .error f ↔ Refused index e (seen (key, value)) f := by
  unfold entry seen
  cases HasBytes.bytes? key with
  | none =>
    constructor
    · intro h
      cases h
      exact .missingKey
    · intro h
      cases h
      rfl
  | some key => cases HasBytes.bytes? value with
    | none =>
      constructor
      · intro h
        cases h
        exact .missingValue
      · intro h
        cases h
        rfl
    | some value =>
      simp only [Except.map_eq_error]
      exact width_eq_error_iff

theorem exists_entry_eq_ok_iff {index : Nat} {key : α} {value : β} :
    (∃ checked, entry e index key value = .ok checked) ↔ ¬ Unwritable e (seen (key, value)) := by
  rw [← exists_refused_iff index]
  simp only [← entry_eq_error_iff]
  cases entry e index key value <;> simp

/-- Only what the checks see decides what becomes of an entry. -/
theorem entry_congr {index : Nat} {x : α × β} {y : α' × β'} (h : seen x = seen y) :
    entry e index x.1 x.2 = entry e index y.1 y.2 := by
  obtain ⟨hkey, hvalue⟩ := Prod.mk.inj h
  simp only [entry, hkey, hvalue]

/-! ## The loop -/

theorem ofEntriesFrom_congr {index total : Nat} {entries : List (α × β)}
    {entries' : List (α' × β')} (h : entries.map seen = entries'.map seen) :
    ofEntriesFrom e index total entries = ofEntriesFrom e index total entries' := by
  induction entries generalizing entries' index total with
  | nil =>
    rw [List.map_eq_nil_iff.mp h.symm]
    rfl
  | cons x entries ih =>
    obtain ⟨y, entries', rfl, hseen, hrest⟩ := List.map_eq_cons_iff.mp h.symm
    simp only [ofEntriesFrom, entry_congr hseen, ih hrest.symm]

/-- As long as the sizes add up to less than 2^64, nothing but the checks can fail. -/
theorem ofEntriesFrom_eq_mapM {index total : Nat} {entries : List (α × β)}
    (hsize : total + e.entriesSize entries < UInt64.size) :
    ofEntriesFrom e index total entries =
      ((entries.zipIdx index).mapM fun x => entry e x.2 x.1.1 x.1.2).map fun checked =>
        ⟨e, checked.map Prod.fst, total + (checked.map Prod.snd).sum⟩ := by
  induction entries generalizing index total with
  | nil => rfl
  | cons first entries ih =>
    simp only [Encoding.entriesSize, List.map_cons, List.sum_cons] at hsize
    simp only [ofEntriesFrom, List.zipIdx_cons, List.mapM_cons]
    cases hentry : entry e index first.1 first.2 with
    | error f => rfl
    | ok checked =>
      have hwidth := width_eq_fieldSize hentry
      have hsum : addSize e total checked.2 = .ok (total + checked.2) := if_pos (by omega)
      have hrest : total + checked.2 + e.entriesSize entries < UInt64.size := by
        unfold Encoding.entriesSize
        omega
      simp only [bind, Except.bind, hsum, ih hrest]
      cases (entries.zipIdx (index + 1)).mapM fun x => entry e x.2 x.1.1 x.1.2 with
      | error f => rfl
      | ok rest => simp [pure, Except.pure, Except.map, Nat.add_assoc]

/-- The first entry that cannot be written stands behind entries that can, and this is why
it is refused. -/
def FirstRefused (e : Encoding) (entries : List (α × β)) (f : WireError) : Prop :=
  ∃ before entry after, entries = before ++ entry :: after ∧
    (∀ x ∈ before, ¬ Unwritable e (seen x)) ∧ Refused before.length e (seen entry) f

theorem forall_exists_entry_eq_ok_iff {entries : List (α × β)} :
    (∀ x ∈ entries.zipIdx, ∃ checked, entry e x.2 x.1.1 x.1.2 = .ok checked) ↔
      ∀ x ∈ entries, ¬ Unwritable e (seen x) := by
  simp only [exists_entry_eq_ok_iff]
  conv_rhs => rw [← List.zipIdx_map_fst 0 entries, List.forall_mem_map]

theorem ofEntries_eq_error_iff {entries : List (α × β)}
    (hsize : e.entriesSize entries < UInt64.size) :
    ofEntries e entries = .error f ↔ FirstRefused e entries f := by
  rw [ofEntries, ofEntriesFrom_eq_mapM (by omega), Except.map_eq_error, Except.mapM_eq_error_iff]
  constructor
  · rintro ⟨before, x, after, hsplit, hchecked, hx⟩
    obtain ⟨before, rest, rfl, rfl, hrest⟩ := List.zipIdx_eq_append_iff.mp hsplit
    obtain ⟨entry, after, rfl, rfl, -⟩ := List.zipIdx_eq_cons_iff.mp hrest.symm
    rw [Nat.zero_add] at hx
    exact ⟨before, entry, after, rfl, forall_exists_entry_eq_ok_iff.mp hchecked,
      entry_eq_error_iff.mp hx⟩
  · rintro ⟨before, entry, after, rfl, hchecked, hentry⟩
    refine ⟨before.zipIdx, (entry, before.length), after.zipIdx (before.length + 1), ?_,
      forall_exists_entry_eq_ok_iff.mpr hchecked, entry_eq_error_iff.mpr hentry⟩
    rw [List.zipIdx_append, List.zipIdx_cons, Nat.zero_add]

theorem exists_ofEntries_eq_error_iff {entries : List (α × β)}
    (hsize : e.entriesSize entries < UInt64.size) :
    (∃ f, ofEntries e entries = .error f) ↔ ∃ entry ∈ entries, Unwritable e (seen entry) := by
  constructor
  · rintro ⟨f, h⟩
    obtain ⟨before, entry, after, rfl, -, hrefused⟩ := (ofEntries_eq_error_iff hsize).mp h
    exact ⟨entry, by simp, (exists_refused_iff _).mp ⟨f, hrefused⟩⟩
  · rintro ⟨entry, hentry, hunwritable⟩
    cases h : ofEntries e entries with
    | error f => exact ⟨f, rfl⟩
    | ok p =>
      rw [ofEntries, ofEntriesFrom_eq_mapM (by omega)] at h
      obtain ⟨checked, hchecked, -⟩ := Except.map_eq_ok.mp h
      have hall := Except.exists_mapM_eq_ok_iff.mp ⟨checked, hchecked⟩
      exact absurd hunwritable (forall_exists_entry_eq_ok_iff.mp hall entry hentry)

/-! ## What is written -/

/-- The message as the write phase puts it together, which casts the count and each length. -/
def castBytes (p : Plan) : Bytes :=
  p.encoding.countBytes (UInt64.ofNat p.size).toNat ++ p.records.flatMap fun r =>
    p.encoding.lengthBytes (p.encoding.castLength r.key.length) ++ r.key ++
      (p.encoding.lengthBytes (p.encoding.castLength r.value.length) ++ r.value)

/-- The plan of entries, all of which passed, is written as it was sized. -/
structure WritesAsSized (e : Encoding) (entries : List (α × β)) (p : Plan) : Prop where
  seen_eq : entries.map seen = p.records.map fun r => (some r.key, some r.value)
  width_eq : ∀ r ∈ p.records, e.lengthWidth r.key.length = .ok (e.prefixWidth r.key.length) ∧
    e.lengthWidth r.value.length = .ok (e.prefixWidth r.value.length)
  byteSize_eq : p.byteSize = e.countWidth entries.length + (p.records.map fun r =>
    e.prefixWidth r.key.length + r.key.length +
      (e.prefixWidth r.value.length + r.value.length)).sum
  length_toBytes : p.toBytes.length = p.byteSize
  size_cast : (UInt64.ofNat p.size).toNat = p.size
  length_cast : ∀ r ∈ p.records, e.castLength r.key.length = r.key.length ∧
    e.castLength r.value.length = r.value.length
  castBytes_eq : p.castBytes = p.toBytes

theorem writesAsSized_of_ofEntries {entries : List (α × β)} {p : Plan}
    (h : ofEntries e entries = .ok p) : WritesAsSized e entries p := by
  obtain ⟨rfl, hseen, hfits, hbody, hbound⟩ := of_ofEntriesFrom_eq_ok h (by decide)
  have hsize : p.size = entries.length := by
    simpa [size] using (congrArg List.length hseen).symm
  have hle := Record.length_le_length_flatMap_bytes p.encoding p.records
  have hcount : p.size < UInt64.size := by
    unfold size
    omega
  have hsizeCast : (UInt64.ofNat p.size).toNat = p.size := UInt64.toNat_ofNat_of_lt' hcount
  have hlengthCast : ∀ r ∈ p.records, p.encoding.castLength r.key.length = r.key.length ∧
      p.encoding.castLength r.value.length = r.value.length := by
    intro r hr
    exact ⟨Encoding.castLength_eq (hfits r hr).key, Encoding.castLength_eq (hfits r hr).value⟩
  constructor
  · exact hseen
  · intro r hr
    exact ⟨Encoding.lengthWidth_eq_prefixWidth (hfits r hr).key,
      Encoding.lengthWidth_eq_prefixWidth (hfits r hr).value⟩
  · simp only [byteSize, hbody, hsize, Nat.zero_add, List.length_flatMap, Record.bytes,
      List.length_append, Encoding.length_fieldBytes]
  · simp only [toBytes, byteSize, hbody, List.length_append, Encoding.length_countBytes,
      Nat.zero_add]
  · exact hsizeCast
  · exact hlengthCast
  · unfold castBytes toBytes
    rw [hsizeCast]
    congr 1
    apply List.flatMap_congr
    intro r hr
    rw [(hlengthCast r hr).1, (hlengthCast r hr).2]
    rfl

end Plan

open Plan

/-- Entries of less than 2^64 bytes, and others of which the checks see the same. To plan
either, to size them and to write them fails with the same error, that of the first entry that
cannot be written, and does so exactly if there is one. Otherwise both have one plan, which is
written as it was sized. -/
theorem sizing_agrees_with_writing {entries : List (α × β)} {shared : List (α' × β')}
    (hshared : shared.map seen = entries.map seen)
    (hsize : e.countWidth entries.length + e.entriesSize entries < UInt64.size) :
    (∀ f, List.TFAE [encode e entries = .error f, encodedLength e entries = .error f,
      ofEntries e entries = .error f, ofEntries e shared = .error f,
      FirstRefused e entries f]) ∧
    ((∃ f, ofEntries e entries = .error f) ↔ ∃ entry ∈ entries, Unwritable e (seen entry)) ∧
    ∀ p, ofEntries e entries = .ok p → ofEntries e shared = .ok p ∧
      encode e entries = .ok p.toBytes ∧ encodedLength e entries = .ok p.byteSize ∧
      WritesAsSized e entries p := by
  have hplans : ofEntries e shared = ofEntries e entries := ofEntriesFrom_congr hshared
  have hentries : e.entriesSize entries < UInt64.size := by omega
  refine ⟨?_, exists_ofEntries_eq_error_iff hentries, ?_⟩
  · intro f
    tfae_have 1 ↔ 3 := Except.map_eq_error
    tfae_have 2 ↔ 3 := Except.map_eq_error
    tfae_have 4 ↔ 3 := by rw [hplans]
    tfae_have 3 ↔ 5 := ofEntries_eq_error_iff hentries
    tfae_finish
  · intro p hp
    refine ⟨hplans.trans hp, ?_, ?_, writesAsSized_of_ofEntries hp⟩
    · rw [encode, hp]
      rfl
    · rw [encodedLength, hp]
      rfl

/-- A key that is one byte too long, with a missing value behind it that would be refused too,
and in base 128 entries that are written. -/
theorem sizing_agrees_with_writing_oversized :
    (∃ key : Bytes, key.length = UInt32.size ∧
      let entries : List (Bytes × Option Bytes) := [([1], some [2, 3]), (key, some []), ([], none)]
      let shared : List (Option Bytes × Option Bytes) :=
        [(some [1], some [2, 3]), (some key, some []), (some [], none)]
      encode .fixed entries = .error (.lengthOverflow .fixed UInt32.size) ∧
        encodedLength .fixed entries = .error (.lengthOverflow .fixed UInt32.size) ∧
        ofEntries .fixed shared = .error (.lengthOverflow .fixed UInt32.size)) ∧
    ∃ p, ofEntries .varint [(some ([1] : Bytes), ([2, 3] : Bytes)), (some [], [])] = .ok p ∧
      encode .varint [(([1] : Bytes), ([2, 3] : Bytes)), ([], [])] = .ok p.toBytes ∧
      encodedLength .varint [(([1] : Bytes), ([2, 3] : Bytes)), ([], [])] = .ok p.byteSize ∧
      p.toBytes.length = p.byteSize := by
  constructor
  · obtain ⟨key, hkey⟩ : ∃ key : Bytes, key.length = UInt32.size :=
      ⟨List.replicate UInt32.size 0, List.length_replicate⟩
    refine ⟨key, hkey, ?_⟩
    intro entries shared
    have hsize : Encoding.fixed.countWidth entries.length + Encoding.fixed.entriesSize entries <
        UInt64.size := by
      simp [entries, Encoding.countWidth, Encoding.entriesSize, Encoding.fieldSize,
        HasBytes.bytes?, Encoding.length_fieldBytes, Encoding.prefixWidth, hkey, UInt32.size,
        UInt64.size]
    have hshared : shared.map seen = entries.map seen := rfl
    obtain ⟨hfails, -, -⟩ := sizing_agrees_with_writing hshared hsize
    have hfirst : FirstRefused .fixed entries (.lengthOverflow .fixed UInt32.size) := by
      refine ⟨[([1], some [2, 3])], (key, some []), [([], none)], rfl, ?_, ?_⟩
      · simp [Unwritable, seen, HasBytes.bytes?, UInt32.size]
      · exact hkey ▸ .oversizedKey (Nat.le_of_eq hkey.symm)
    exact ⟨((hfails _).out 4 0).mp hfirst, ((hfails _).out 4 1).mp hfirst,
      ((hfails _).out 4 3).mp hfirst⟩
  · have hshared : [(some ([1] : Bytes), ([2, 3] : Bytes)), (some [], [])].map seen =
        [(([1] : Bytes), ([2, 3] : Bytes)), ([], [])].map seen := rfl
    obtain ⟨-, -, hwritten⟩ := sizing_agrees_with_writing (e := .varint) hshared
      (by decide +kernel)
    obtain ⟨hplan, hencode, hlength, hwrites⟩ :=
      hwritten ⟨.varint, [⟨[1], [2, 3]⟩, ⟨[], []⟩], 7⟩ (by decide +kernel)
    exact ⟨_, hplan, hencode, hlength, hwrites.length_toBytes⟩

end ShardedRecords
