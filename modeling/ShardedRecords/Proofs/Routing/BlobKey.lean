import Mathlib.Logic.Function.Basic
import ShardedRecords.Routing.BlobKey

/-!
# Keys and indices

A key tells its index, so two indices never share a blob, and any eight bytes are the key of
some index. The order of the keys is that of byte strings.
-/
namespace ShardedRecords

theorem Bytes.compare_eq_lt_iff {a b : Bytes} : compare a b = .lt ↔ a < b := by
  induction a generalizing b with
  | nil =>
    cases b with
    | nil => simp
    | cons y ys =>
      have hnil : compare ([] : Bytes) (y :: ys) = .lt := List.compareLex_nil_cons
      simp [hnil]
  | cons x xs ih =>
    cases b with
    | nil =>
      have hnil : compare (x :: xs) ([] : Bytes) = .gt := List.compareLex_cons_nil
      simp [hnil]
    | cons y ys =>
      have hcons : compare (x :: xs) (y :: ys) = (compare x y).then (compare xs ys) :=
        List.compareLex_cons_cons
      rw [hcons, List.cons_lt_cons_iff, ← ih, Ordering.then_eq_lt, Std.compare_eq_lt,
        Std.compare_eq_iff_eq]

namespace BlobKey

theorem compare_eq_lt_iff {a b : BlobKey} : compare a b = .lt ↔ a.toList < b.toList := by
  have hlist : compare a b = compare a.toList b.toList :=
    Vector.compareLex_eq_compareLex_toList
  rw [hlist, Bytes.compare_eq_lt_iff]

theorem value_toList_pack (index : UInt64) :
    LittleEndian.value (pack index).toList = index.toNat := by
  rw [toList_pack, LittleEndian.value_spell_of_lt]
  exact index.toNat_lt

theorem pack_injective : Function.Injective pack := by
  intro i j h
  apply UInt64.toNat_inj.mp
  rw [← value_toList_pack, ← value_toList_pack, h]

theorem unpack_pack_append (index : UInt64) (rest : Bytes) :
    unpack ((pack index).toList ++ rest) = .ok index := by
  have hcut : Bytes.cut? 8 ((pack index).toList ++ rest) = some ((pack index).toList, rest) :=
    Bytes.cut?_append (pack index).toList rest
  unfold unpack
  simp only [hcut, value_toList_pack, UInt64.ofNat_toNat]

theorem exists_unpack_eq_ok {bs : Bytes} (h : 8 ≤ bs.length) :
    ∃ index, unpack bs = .ok index ∧ (pack index).toList = bs.take 8 := by
  have hlength : (bs.take 8).length = 8 := List.length_take_of_le h
  have hlt : LittleEndian.value (bs.take 8) < UInt64.size := by
    have hvalue := LittleEndian.value_lt (bs.take 8)
    rwa [hlength] at hvalue
  have hspell := LittleEndian.spell_value (bs.take 8)
  rw [hlength] at hspell
  refine ⟨.ofNat (LittleEndian.value (bs.take 8)), ?_, ?_⟩
  · unfold unpack
    simp only [Bytes.cut?_eq, if_pos h]
  · rw [toList_pack, UInt64.toNat_ofNat_of_lt' hlt, hspell]

end BlobKey

end ShardedRecords
