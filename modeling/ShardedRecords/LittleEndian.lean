import ShardedRecords.Bytes

/-!
# Little-endian numbers of a fixed width

The least significant byte comes first. Reading undoes writing up to the
numbers that the width can hold, and writing undoes reading on every byte
string, so a fixed-width number has exactly one spelling.
-/
namespace ShardedRecords.LittleEndian

/-- The count of numbers that `width` bytes can hold. -/
def capacity : (width : Nat) → Nat
  | 0 => 1
  | width + 1 => 256 * capacity width

/-- Exactly `width` bytes; what a number has above them is dropped. -/
def spell : (width : Nat) → Nat → Bytes
  | 0, _ => []
  | width + 1, n => UInt8.ofNat n :: spell width (n / 256)

def value : Bytes → Nat
  | [] => 0
  | b :: bs => b.toNat + 256 * value bs

@[simp] theorem length_spell (width n : Nat) : (spell width n).length = width := by
  induction width generalizing n with
  | zero => rfl
  | succ width ih => simp [spell, ih]

theorem value_spell (width n : Nat) : value (spell width n) = n % capacity width := by
  induction width generalizing n with
  | zero => simp [spell, value, capacity, Nat.mod_one]
  | succ width ih => rw [spell, value, ih, capacity, Nat.mod_mul, UInt8.toNat_ofNat']

theorem value_spell_of_lt {width n : Nat} (h : n < capacity width) :
    value (spell width n) = n := by
  rw [value_spell, Nat.mod_eq_of_lt h]

theorem value_lt (bs : Bytes) : value bs < capacity bs.length := by
  induction bs with
  | nil => simp [value, capacity]
  | cons b bs ih =>
    have hb := b.toNat_lt
    simp only [value, List.length_cons, capacity]
    omega

theorem spell_value (bs : Bytes) : spell bs.length (value bs) = bs := by
  induction bs with
  | nil => rfl
  | cons b bs ih =>
    have hb := b.toNat_lt
    have hd : (b.toNat + 256 * value bs) / 256 = value bs := by omega
    simp only [List.length_cons, value, spell, hd, ih, List.cons.injEq, and_true]
    apply UInt8.toNat_inj.mp
    rw [UInt8.toNat_ofNat']
    omega

end ShardedRecords.LittleEndian
