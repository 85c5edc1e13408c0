import Mathlib.Data.List.DropRight
import ShardedRecords.Proofs.Slots

/-!
# The slots of a blob one after the other

The slots that a blob has are as many as whole ones fit into it, however it is asked for one:
by counting, by reading or by writing. One after the other they are the blob without a tail
that is shorter than a slot.
-/
namespace ShardedRecords.Slots

variable {blob : Bytes} {width : Nat}

/-- The slots of a blob in their order, without the tail. -/
def wholeSlots (blob : Bytes) (width : Nat) : List Bytes :=
  (List.range (count blob.length width)).map fun slot => (blob.drop (slot * width)).take width

theorem length_wholeSlots (blob : Bytes) (width : Nat) :
    (wholeSlots blob width).length = count blob.length width := by
  simp [wholeSlots]

theorem flatten_map_range (blob : Bytes) (width n : Nat) :
    ((List.range n).map fun slot => (blob.drop (slot * width)).take width).flatten =
      blob.take (n * width) := by
  induction n with
  | zero => simp
  | succ n ih =>
    rw [List.range_succ, List.map_append, List.flatten_append, ih, Nat.add_one_mul, List.take_add]
    simp

/-- The tail is what a division by the width leaves. -/
theorem flatten_wholeSlots_append_rtake (blob : Bytes) (width : Nat) :
    (wholeSlots blob width).flatten ++ blob.rtake (blob.length % width) = blob := by
  have hwhole : blob.length - blob.length % width = count blob.length width * width := by
    have hlength := Nat.div_add_mod' blob.length width
    unfold count
    omega
  unfold wholeSlots
  rw [flatten_map_range, List.rtake, hwhole, List.take_append_drop]

/-! ## Which slots there are -/

section

variable (hwidth : 0 < width)
include hwidth

theorem fits_iff_lt_count {slot : Nat} :
    (slot + 1) * width ≤ blob.length ↔ slot < count blob.length width :=
  (Nat.le_div_iff_mul_le hwidth).symm

theorem length_of_mem_wholeSlots {bs : Bytes} (h : bs ∈ wholeSlots blob width) :
    bs.length = width := by
  obtain ⟨slot, hslot, rfl⟩ := List.mem_map.mp h
  have hfits := (fits_iff_lt_count hwidth).mpr (List.mem_range.mp hslot)
  rw [Nat.add_one_mul] at hfits
  simp only [List.length_take, List.length_drop]
  omega

variable (hlen : blob.length < UInt64.size)
include hlen

theorem get?_eq_getElem?_wholeSlots (slot : Nat) :
    get? blob slot width = (wholeSlots blob width)[slot]? := by
  rw [get?_eq_slice? hlen, Bytes.slice?, ← Nat.add_one_mul]
  by_cases hslot : slot < count blob.length width
  · rw [if_pos ((fits_iff_lt_count hwidth).mpr hslot)]
    simp [wholeSlots, hslot]
  · rw [if_neg (mt (fits_iff_lt_count hwidth).mp hslot)]
    simp [wholeSlots, Nat.not_lt.mp hslot]

theorem exists_get?_iff {slot : Nat} :
    (∃ bs, get? blob slot width = some bs) ↔ slot < count blob.length width := by
  rw [get?_eq_getElem?_wholeSlots hwidth hlen, ← length_wholeSlots]
  constructor
  · rintro ⟨bs, h⟩
    exact (List.getElem?_eq_some_iff.mp h).1
  · intro h
    exact ⟨_, List.getElem?_eq_getElem h⟩

theorem exists_patch_singleton_iff {slot : Nat} {value : Bytes} (hvalue : value.length = width) :
    (∃ out, patch blob width [(slot, value)] = .ok out) ↔ slot < count blob.length width := by
  rw [exists_patch_iff_of_lengths hlen (by simpa using hvalue), List.forall_mem_singleton]
  exact fits_iff_lt_count hwidth

end

/-- A slot can be read if it is below the count of slots, and only then it can be written. The
slots that can be read are, in their order and with the tail behind them, the blob. An index
may be so large that its slot lies outside the words. -/
theorem slots_tile_blob (hlen : blob.length < UInt64.size) (hwidth : 0 < width) :
    (∀ slot, (∃ bs, get? blob slot width = some bs) ↔ slot < count blob.length width) ∧
    (∃ slots : List Bytes, slots.length = count blob.length width ∧
      (∀ slot, get? blob slot width = slots[slot]?) ∧ (∀ bs ∈ slots, bs.length = width) ∧
      slots.flatten ++ blob.rtake (blob.length % width) = blob) ∧
    ∀ slot (value : Bytes), value.length = width →
      ((∃ out, patch blob width [(slot, value)] = .ok out) ↔ slot < count blob.length width) := by
  constructor
  · intro slot
    exact exists_get?_iff hwidth hlen
  constructor
  · exact ⟨wholeSlots blob width, length_wholeSlots blob width,
      get?_eq_getElem?_wholeSlots hwidth hlen, fun bs => length_of_mem_wholeSlots hwidth,
      flatten_wholeSlots_append_rtake blob width⟩
  · intro slot value hvalue
    exact exists_patch_singleton_iff hwidth hlen hvalue

/-- Two slots of three bytes and a tail of two. The product of the far index and the width
leaves the words, and what is left of it there would lie in the blob. -/
theorem slots_tile_blob_far_index :
    let blob : Bytes := [1, 2, 3, 4, 5, 6, 7, 8]
    let value : Bytes := [0, 0, 0]
    let far := 6148914691236517206
    (blob.length < UInt64.size ∧ 0 < 3 ∧ value.length = 3) ∧
      far * 3 % UInt64.size + 3 ≤ blob.length ∧
      (¬∃ bs, get? blob far 3 = some bs) ∧ (¬∃ out, patch blob 3 [(far, value)] = .ok out) ∧
      (∃ bs, get? blob 1 3 = some bs) ∧ (∃ out, patch blob 3 [(1, value)] = .ok out) ∧
      ∃ slots : List Bytes, slots.length = 2 ∧ slots.flatten ++ [7, 8] = blob := by
  intro blob value far
  have hlen : blob.length < UInt64.size := by decide
  have hwidth : 0 < 3 := by decide
  have hcount : count blob.length 3 = 2 := by decide
  have htail : blob.rtake (blob.length % 3) = [7, 8] := by decide
  obtain ⟨hread, ⟨slots, hslots, -, -, htile⟩, hwrite⟩ := slots_tile_blob hlen hwidth
  rw [hcount] at hread hslots hwrite
  rw [htail] at htile
  exact ⟨⟨hlen, hwidth, rfl⟩, by decide, mt (hread far).mp (by decide),
    mt (hwrite far value rfl).mp (by decide), (hread 1).mpr (by decide),
    (hwrite 1 value rfl).mpr (by decide), slots, hslots, htile⟩

end ShardedRecords.Slots
