import ShardedRecords.Proofs.BucketedTable.Drain
import ShardedRecords.Proofs.BucketedTable.Reachable
import ShardedRecords.Proofs.PagedArray.Reachable
import ShardedRecords.Proofs.Wire.Faults

/-!
# Who is at fault

A fault is called the caller's exactly where it comes from the arguments of a call. What
is read back, from a store or from any buffer, never makes the caller guilty, and what
was staged is checked when it is staged, except for the lengths of keys and values.
-/
namespace ShardedRecords

variable {κ δ γ : Type} [Ord κ]

/-- What is stored may be unreadable, but not by a fault of the caller. -/
def BlobKind.ReadsBlameless (kind : BlobKind κ δ γ) : Prop :=
  ∀ blob fault, kind.read blob = .error fault → fault.isCallerBug = false

namespace Overlay

variable {kind : BlobKind κ δ γ} {load : Loader} {o : Overlay κ δ γ} {key : BlobKey}
  {fault : Fault}

theorem isCallerBug_of_base (hkind : kind.ReadsBlameless)
    (h : o.base kind load key = .error fault) : fault.isCallerBug = false := by
  obtain ⟨-, ⟨reason, -, rfl⟩ | ⟨blob, -, hread⟩⟩ := base_eq_error.mp h
  · rfl
  · exact hkind blob fault hread

/-- A drain can only be the caller's fault where changes cannot be merged. -/
theorem exists_merge_of_drain_error [Std.TransOrd κ] (hkind : kind.ReadsBlameless)
    (h : (o.drain kind load).1 = .error fault) (hbug : fault.isCallerBug = true) :
    ∃ (key : BlobKey) (changes : Std.ExtTreeMap κ δ) (base : γ),
      o.staged[key]? = some changes ∧ o.base kind load key = .ok base ∧
      kind.merge key base changes = .error fault := by
  obtain ⟨key, changes, hstaged, hmerged, -⟩ := exists_first_of_drain_error h
  rcases mergeBlob_eq_error.mp hmerged with hbase | ⟨base, hbase, hmerge⟩
  · simp [isCallerBug_of_base hkind hbase] at hbug
  · exact ⟨key, changes, base, hstaged, hbase, hmerge⟩

end Overlay

/-! ## Tables -/

theorem Table.readsBlameless (e : Encoding) : (Table.blobKind e).ReadsBlameless := by
  intro blob fault h
  cases blob with
  | none => cases h
  | some blob =>
    obtain ⟨cause, hdecode, rfl⟩ := Except.mapError_eq_error.mp h
    exact (ofReading_of_decodeInto hdecode).isCallerBug_eq_false

/-- A table that fits can only be made unwritable by an oversized field that is put. -/
theorem Table.exists_oversized_put {e : Encoding} {old : Table} {changes : Changes}
    {cause : WireError} (hold : old.Fits e)
    (hsize : e.entriesSize (old.applyChanges changes).toList < UInt64.size)
    (h : (old.applyChanges changes).encode e = .error cause) :
    e = .fixed ∧ ∃ (key value : Bytes), changes[key]? = some (.put value) ∧
      (UInt32.size ≤ key.length ∨ UInt32.size ≤ value.length) := by
  rw [← map_entry_records, Encoding.entriesSize_map_entry] at hsize
  have hunwritable : ¬(old.applyChanges changes).Fits e := by
    intro hfits
    obtain ⟨blob, hencode⟩ := exists_encode_iff.mpr ⟨hfits, hsize⟩
    cases h.symm.trans hencode
  -- The record that does not fit is none of the old table, so one of its fields was put.
  simp only [Fits, not_forall] at hunwritable
  obtain ⟨r, hr, hnot⟩ := hunwritable
  cases e with
  | varint =>
    have hfits := Record.fits_of_length_flatMap (e := .varint) (fun h => nomatch h) hsize
    exact absurd (hfits r hr) hnot
  | fixed =>
    refine ⟨rfl, r.key, r.value, ?_, ?_⟩
    · have hvalue := mem_records_iff.mp hr
      rw [getElem?_applyChanges] at hvalue
      cases hc : changes[r.key]? with
      | none =>
        simp only [hc] at hvalue
        exact absurd (hold r (mem_records_iff.mpr hvalue)) hnot
      | some c =>
        simp only [hc] at hvalue
        cases c with
        | erase => cases hvalue
        | put value =>
          cases hvalue
          rfl
    · by_contra hshort
      rw [not_or, Nat.not_le, Nat.not_le] at hshort
      exact hnot ⟨hshort.1, hshort.2⟩

namespace BucketedTable

variable {config : BucketedTable.Config} {load : Loader} {t : BucketedTable} {fault : Fault}

/-- No bucket with staged changes takes 2^64 bytes or more. -/
def Bounded (load : Loader) (t : BucketedTable) : Prop :=
  ∀ (bucket : BlobKey) changes old new, t.overlay.staged[bucket]? = some changes →
    t.Holds load bucket old → old.ChangedBy changes new →
    t.encoding.entriesSize new.toList < UInt64.size

/-- The fixed encoding cannot spell the length of a key or a value that is staged. -/
def StagesOversized (t : BucketedTable) : Prop :=
  t.encoding = .fixed ∧ ∃ key value, t.overlay.change? (t.blobKey key) key = some (.put value) ∧
    (UInt32.size ≤ key.length ∨ UInt32.size ≤ value.length)

theorem isCallerBug_of_get {key : Bytes} (h : (t.get load key).1 = .error fault) :
    fault.isCallerBug = false := by
  rw [get_fst] at h
  cases hc : t.overlay.change? (t.blobKey key) key with
  | some c => simp [hc] at h
  | none =>
    simp only [hc, Except.map_eq_error] at h
    exact Overlay.isCallerBug_of_base (Table.readsBlameless t.encoding) h

theorem Reachable.stagesOversized (hreach : Reachable config t) (hbounded : t.Bounded load)
    (h : (t.drain load).1 = .error fault) (hbug : fault.isCallerBug = true) :
    t.StagesOversized := by
  obtain ⟨bucket, changes, old, hstaged, hbase, hmerge⟩ :=
    Overlay.exists_merge_of_drain_error (Table.readsBlameless t.encoding) h hbug
  have hfits : old.Fits t.encoding := hreach.sound.of_base (Table.reads_fits load bucket) hbase
  have hsize := hbounded bucket changes old _ hstaged (holds_iff.mpr hbase)
    (Table.changedBy_iff.mpr rfl)
  obtain ⟨cause, hencode, -⟩ := Except.mapError_eq_error.mp (Except.map_eq_error.mp hmerge)
  obtain ⟨hfixed, key, value, hput, hlong⟩ := Table.exists_oversized_put hfits hsize hencode
  refine ⟨hfixed, key, value, ?_, hlong⟩
  obtain rfl : t.blobKey key = bucket := hreach.sound.tidy.allowed bucket changes hstaged key _ hput
  simp [Overlay.change?, hstaged, hput]

end BucketedTable

/-! ## Arrays -/

theorem Slots.readsBlameless (width : Nat) : (Slots.blobKind width).ReadsBlameless :=
  fun _ _ h => nomatch h

namespace PagedArray

variable {config : PagedArray.Config} {load : Loader} {a : PagedArray} {fault : Fault}

theorem isCallerBug_of_set {index : UInt64} {value : Bytes}
    (h : (a.set index value).1 = .error fault) : fault.isCallerBug = true := by
  by_cases hlength : value.length = a.width
  · rw [a.set_of_length_eq index hlength] at h
    cases h
  · rw [a.set_of_length_ne index hlength] at h
    cases h
    rfl

theorem isCallerBug_of_get {index : UInt64} (h : (a.get load index).1 = .error fault) :
    fault.isCallerBug = false := by
  rw [get_fst] at h
  cases hc : a.overlay.change? (a.locate index).1 (a.locate index).2 with
  | some value => simp [hc] at h
  | none =>
    simp only [hc, Except.map_eq_error] at h
    exact Overlay.isCallerBug_of_base (Slots.readsBlameless a.width) h

/-- That a value has the wrong length is found when it is set, and never by a drain. -/
theorem Reachable.isCallerBug_of_drain (hreach : Reachable (fun _ => True) config a)
    (h : (a.drain load).1 = .error fault) : fault.isCallerBug = false := by
  by_contra hbug
  rw [Bool.not_eq_false] at hbug
  obtain ⟨page, changes, content, hstaged, -, hmerge⟩ :=
    Overlay.exists_merge_of_drain_error (Slots.readsBlameless a.width) h hbug
  obtain ⟨cause, hpatch, rfl⟩ := Except.mapError_eq_error.mp (Except.map_eq_error.mp hmerge)
  obtain ⟨before, ⟨slot, value⟩, after, hsplit, -, hcheck⟩ :=
    Slots.patch_eq_error_iff.mp hpatch
  have hmem : (slot, value) ∈ changes.toList := by simp [hsplit]
  have hsound : a.overlay.Sound a.Accepts fun _ _ => True :=
    hreach.sound (fun a => a.keeps_length fun _ => True) fun _ _ _ _ _ _ _ _ => trivial
  -- What was staged was accepted, so only the check of the slot is left to fail.
  have hlength : value.length = a.width := (hsound.tidy.allowed page changes hstaged slot value
    (Std.ExtTreeMap.mem_toList_iff_getElem?_eq_some.mp hmem)).1
  cases Slots.eq_outOfRange_of_check hlength hcheck
  cases hbug

end PagedArray

/-! ## All together -/

/-- Every fault in writing a message is the caller's, and none in reading one, in getting
from a table or an array, or in draining an array is. A fault in draining a table is only the
caller's if an oversized field is staged, and every fault in setting an index of an array is. -/
theorem isCallerBug_sound :
    (∀ (α β : Type) [HasBytes α] [HasBytes β] (e : Encoding) (entries : List (α × β)) f,
      e.entriesSize entries < UInt64.size →
      (Plan.ofEntries e entries = .error f ∨ encode e entries = .error f ∨
        encodedLength e entries = .error f) → f.isCallerBug = true) ∧
    (∀ buf pos f, ((Cursor.ofBytesAt buf pos).read .base128).1 = .error f →
      f.isCallerBug = false) ∧
    (∀ s op f, (ReadState.step s op).1 = .error f → f.isCallerBug = false) ∧
    (∀ e buf f, RecordStream.ofBytes e buf = .error f → f.isCallerBug = false) ∧
    (∀ s f, (RecordStream.next s).1 = some (.error f) → f.isCallerBug = false) ∧
    (∀ (σ : Type) [Sink σ] e buf f, decodeInto σ e buf = .error f → f.isCallerBug = false ∧
      (e = .fixed → ∃ offset needed remaining, f = .truncated offset needed remaining)) ∧
    (∀ config t load, BucketedTable.Reachable config t →
      (∀ key f, (t.get load key).1 = .error f → f.isCallerBug = false) ∧
      (t.Bounded load → ∀ f, (t.drain load).1 = .error f → f.isCallerBug = true →
        t.StagesOversized)) ∧
    ∀ config a load, PagedArray.Reachable (fun _ => True) config a →
      (∀ index value f, (a.set index value).1 = .error f → f.isCallerBug = true) ∧
      (∀ index f, (a.get load index).1 = .error f → f.isCallerBug = false) ∧
      ∀ f, (a.drain load).1 = .error f → f.isCallerBug = false := by
  refine ⟨?_, ?_, ?_, ?_, ?_, ?_, ?_, ?_⟩
  · intro α β _ _ e entries f hsize h
    simp only [encode, encodedLength, Except.map_eq_error, or_self] at h
    exact Plan.isCallerBug_of_ofEntriesFrom (by rwa [Nat.zero_add]) h
  · intro buf pos f h
    exact (Reader.FailsByBytes.base128 _ f h).isCallerBug_eq_false
  · intro s op f h
    obtain ⟨e, hf⟩ := ReadState.ofReading_of_step h
    exact hf.isCallerBug_eq_false
  · intro e buf f h
    exact (RecordStream.ofReading_of_ofBytes h).isCallerBug_eq_false
  · intro s f h
    exact (RecordStream.ofReading_of_next h).isCallerBug_eq_false
  · intro σ _ e buf f h
    have hf := ofReading_of_decodeInto h
    refine ⟨hf.isCallerBug_eq_false, ?_⟩
    rintro rfl
    exact hf.exists_truncated
  · intro config t load hreach
    exact ⟨fun _ _ => BucketedTable.isCallerBug_of_get,
      fun hbounded _ => hreach.stagesOversized hbounded⟩
  · intro config a load hreach
    exact ⟨fun _ _ _ => PagedArray.isCallerBug_of_set, fun _ _ => PagedArray.isCallerBug_of_get,
      fun _ => hreach.isCallerBug_of_drain⟩

/-- A tombstone cannot be written, a broken bucket cannot be merged although only small
fields are staged, and a slot behind the end of its page cannot be written, although its
value was accepted. -/
theorem isCallerBug_sound_refusals :
    let entries : List (Bytes × Option Bytes) := [([1], some [2]), ([3], none)]
    let t := (⟨⟨4, by decide⟩, .fixed, .empty⟩ : BucketedTable).put [1] [7]
    let broken : Loader := fun _ => .ok (some [0])
    let array : PagedArray := ⟨2, 2, .empty⟩
    let a := (array.set 1 [1, 2]).2
    (Encoding.varint.entriesSize entries < UInt64.size ∧ BucketedTable.Reachable ⟨4, .fixed⟩ t ∧
        t.Bounded broken ∧ PagedArray.Reachable (fun _ => True) ⟨2, 2⟩ a) ∧
      (∃ f, encode .varint entries = .error f ∧ f.isCallerBug = true) ∧
      (∃ f, (t.drain broken).1 = .error f ∧ ¬f.isCallerBug = true) ∧
      (∃ f, (array.set 1 [1]).1 = .error f ∧ f.isCallerBug = true) ∧
      ∃ f, (a.drain broken).1 = .error f ∧ f.isCallerBug = false := by
  intro entries t broken array a
  have hsize : Encoding.varint.entriesSize entries < UInt64.size := by decide +kernel
  have htable : BucketedTable.Reachable ⟨4, .fixed⟩ t := .put [1] [7] (.opened rfl)
  have hopened : PagedArray.Reachable (fun _ => True) ⟨2, 2⟩ array := .opened rfl
  have harray : PagedArray.Reachable (fun _ => True) ⟨2, 2⟩ a := hopened.set 1 [1, 2]
  have hbroken : Table.decode .fixed [0] = .error (.truncated 0 8 1) := by
    rw [Table.decode_eq]
    rfl
  have hbounded : t.Bounded broken := by
    rintro bucket changes old new - (hcache | ⟨-, hload⟩ | ⟨-, hload, hdecode⟩)
    · simp [t, BucketedTable.put, BucketedTable.stage, Overlay.stage, Overlay.empty] at hcache
    · cases hload
    · cases hload
      cases hbroken.symm.trans hdecode
  have hsmall : ¬t.StagesOversized := by
    rintro ⟨-, key, value, hput, hlong⟩
    simp only [t, BucketedTable.put, BucketedTable.stage, Overlay.change?_stage,
      Overlay.change?_empty] at hput
    split at hput
    · rename_i hkey
      cases hput
      obtain ⟨-, rfl⟩ := hkey
      revert hlong
      decide
    · cases hput
  obtain ⟨hwrite, -, -, -, -, -, htables, harrays⟩ := isCallerBug_sound
  refine ⟨⟨hsize, htable, hbounded, harray⟩, ?_, ?_, ?_, ?_⟩
  · have h : encode .varint entries = .error (.notBytes 1 .value) := by decide +kernel
    exact ⟨_, h, hwrite _ _ .varint entries _ hsize (.inr (.inl h))⟩
  · have h : (t.drain broken).1 = .error (.wire (.truncated 0 8 1)) := by decide +kernel
    exact ⟨_, h, fun hbug => hsmall ((htables _ t broken htable).2 hbounded _ h hbug)⟩
  · have h : (array.set 1 [1]).1 = .error (.slots (.wrongLength 1 1 2)) := by decide +kernel
    exact ⟨_, h, (harrays _ array broken hopened).1 1 [1] _ h⟩
  · have h : (a.drain broken).1 = .error (.slots (.outOfRange 1 2 1)) := by decide +kernel
    exact ⟨_, h, (harrays _ a broken harray).2.2 _ h⟩

end ShardedRecords
