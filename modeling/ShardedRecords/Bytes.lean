/-!
# Byte strings

Keys, values, blobs and buffers are finite lists of bytes. Lengths and offsets
are natural numbers; where a calculation with them has to stay within a word, that is
said there.
-/
namespace ShardedRecords

abbrev Bytes := List UInt8

namespace Bytes

/-- The first `n` bytes and what follows them, if there are that many. The list
is walked for `n` cells only, however long it is. -/
def cut? : Nat → Bytes → Option (Bytes × Bytes)
  | 0, bs => some ([], bs)
  | _ + 1, [] => none
  | n + 1, b :: bs => (cut? n bs).map fun (front, rest) => (b :: front, rest)

theorem cut?_eq (n : Nat) (bs : Bytes) :
    cut? n bs = if n ≤ bs.length then some (bs.take n, bs.drop n) else none := by
  induction n generalizing bs with
  | zero => simp [cut?]
  | succ n ih => cases bs with
    | nil => simp [cut?]
    | cons b bs =>
      rw [cut?, ih]
      by_cases h : n ≤ bs.length <;> simp [h]

@[simp] theorem cut?_append (front rest : Bytes) :
    cut? front.length (front ++ rest) = some (front, rest) := by
  simp [cut?_eq]

theorem cut?_eq_none_iff {n : Nat} {bs : Bytes} : cut? n bs = none ↔ bs.length < n := by
  simp [cut?_eq]

end Bytes

end ShardedRecords
