import Mathlib.Algebra.BigOperators.Fin
import Mathlib.Data.Int.ModEq
import Mathlib.Tactic.Ring
import ShardedRecords.Routing.Hash

/-!
# The hash as a number

Without the wrap-around the hash of a key is a number in the base 33, of which the seed is
the first digit and the bytes of the key are the others. The hash is what this number leaves
modulo 2^64. Hashing on from a hash shifts it and adds the digits that follow, so it is
known what a key with a suffix hashes to.
-/
namespace ShardedRecords

/-- The bytes as digits to the base 33, with the most significant one in front. A byte that
is larger than the base carries over. -/
def Bytes.base33 (bs : Bytes) : Nat :=
  ∑ i : Fin bs.length, bs[i].toNat * 33 ^ (bs.length - 1 - i)

namespace Bytes

@[simp] theorem base33_nil : base33 [] = 0 := rfl

theorem base33_cons (b : UInt8) (bs : Bytes) :
    base33 (b :: bs) = b.toNat * 33 ^ bs.length + bs.base33 := by
  unfold base33
  simp only [List.length_cons]
  rw [Fin.sum_univ_succ]
  congr 1
  apply Finset.sum_congr rfl
  intro i _
  have hexponent : bs.length + 1 - 1 - (i.val + 1) = bs.length - 1 - i.val := by omega
  simp only [Fin.val_succ, hexponent]
  rfl

@[simp] theorem base33_singleton (b : UInt8) : base33 [b] = b.toNat := by
  simp [base33_cons]

end Bytes

/-! ## One byte -/

theorem toNat_hashStep_modEq (h : UInt64) (b : UInt8) :
    (hashStep h b).toNat ≡ h.toNat * 33 + b.toNat [MOD 2 ^ 64] := by
  have hmul : (h * 33).toNat ≡ h.toNat * 33 [MOD 2 ^ 64] := by
    rw [UInt64.toNat_mul]
    exact Nat.mod_modEq _ _
  have hadd : (hashStep h b).toNat ≡ (h * 33).toNat + b.toNat [MOD 2 ^ 64] := by
    rw [hashStep, UInt64.toNat_add, UInt8.toNat_toUInt64]
    exact Nat.mod_modEq _ _
  exact hadd.trans (hmul.add_right _)

/-! ## All bytes -/

theorem toNat_foldl_hashStep_modEq (h : UInt64) (bs : Bytes) :
    (bs.foldl hashStep h).toNat ≡ h.toNat * 33 ^ bs.length + bs.base33 [MOD 2 ^ 64] := by
  induction bs generalizing h with
  | nil => simp [Nat.ModEq.refl]
  | cons b bs ih =>
    have hstep := (toNat_hashStep_modEq h b).mul_right (33 ^ bs.length)
    calc (bs.foldl hashStep (hashStep h b)).toNat
        ≡ (hashStep h b).toNat * 33 ^ bs.length + Bytes.base33 bs [MOD 2 ^ 64] := ih _
      _ ≡ (h.toNat * 33 + b.toNat) * 33 ^ bs.length + Bytes.base33 bs [MOD 2 ^ 64] :=
          hstep.add_right _
      _ = h.toNat * 33 ^ (b :: bs).length + Bytes.base33 (b :: bs) := by
          rw [Bytes.base33_cons, List.length_cons]
          ring

theorem toNat_djb2_append_modEq (a b : Bytes) :
    (djb2 (a ++ b)).toNat ≡ (djb2 a).toNat * 33 ^ b.length + b.base33 [MOD 2 ^ 64] := by
  unfold djb2
  rw [List.foldl_append]
  exact toNat_foldl_hashStep_modEq _ b

theorem toNat_djb2 (bs : Bytes) :
    (djb2 bs).toNat = (5381 * 33 ^ bs.length + bs.base33) % 2 ^ 64 := by
  have hmod : (djb2 bs).toNat ≡ 5381 * 33 ^ bs.length + bs.base33 [MOD 2 ^ 64] :=
    toNat_foldl_hashStep_modEq hashSeed bs
  rw [← hmod, Nat.mod_eq_of_lt (djb2 bs).toNat_lt]

/-- The seed in front of the second part counts only once. -/
theorem toNat_djb2_append (a b : Bytes) : ((djb2 (a ++ b)).toNat : ℤ) =
    (((djb2 a).toNat - 5381) * 33 ^ b.length + (djb2 b).toNat) % 2 ^ 64 := by
  have hwhole : ((djb2 (a ++ b)).toNat : ℤ) ≡
      (djb2 a).toNat * 33 ^ b.length + b.base33 [ZMOD 2 ^ 64] := by
    exact_mod_cast Int.natCast_modEq_iff.mpr (toNat_djb2_append_modEq a b)
  have hsecond : ((djb2 b).toNat : ℤ) ≡ 5381 * 33 ^ b.length + b.base33 [ZMOD 2 ^ 64] := by
    exact_mod_cast Int.natCast_modEq_iff.mpr (toNat_foldl_hashStep_modEq hashSeed b)
  have hsum : ((djb2 a).toNat - 5381) * 33 ^ b.length + ((djb2 b).toNat : ℤ) ≡
      (djb2 a).toNat * 33 ^ b.length + b.base33 [ZMOD 2 ^ 64] := by
    calc ((djb2 a).toNat - 5381) * 33 ^ b.length + ((djb2 b).toNat : ℤ)
        ≡ ((djb2 a).toNat - 5381) * 33 ^ b.length + (5381 * 33 ^ b.length + b.base33)
            [ZMOD 2 ^ 64] := hsecond.add_left _
      _ = (djb2 a).toNat * 33 ^ b.length + b.base33 := by ring
  have hlt : ((djb2 (a ++ b)).toNat : ℤ) < 2 ^ 64 := by
    exact_mod_cast (djb2 (a ++ b)).toNat_lt
  rw [← hwhole.trans hsum.symm, Int.emod_eq_of_lt (Int.natCast_nonneg _) hlt]

end ShardedRecords
