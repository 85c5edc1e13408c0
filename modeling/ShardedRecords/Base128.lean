import ShardedRecords.Bytes

/-!
# Base-128 numbers

A number is written seven bits to a byte, least significant first, and every
byte but the last has its high bit set. Ten bytes hold any 64-bit number.
Padding with zero digits is accepted by the reader and never produced by the
writer.
-/
namespace ShardedRecords.Base128

def spell (n : Nat) : Bytes :=
  if n < 128 then [UInt8.ofNat n] else UInt8.ofNat (n % 128 + 128) :: spell (n / 128)
termination_by n
decreasing_by omega

/-- The number of bytes that `spell` writes, found without writing them. -/
def width (n : Nat) : Nat :=
  if n < 128 then 1 else width (n / 128) + 1
termination_by n
decreasing_by omega

@[simp] theorem length_spell (n : Nat) : (spell n).length = width n := by
  fun_induction spell n with
  | case1 n h => simp [width, h]
  | case2 n h ih => rw [width, if_neg h, List.length_cons, ih]

/-- How reading one number can end: at its last digit, at a digit that does not
fit into 64 bits, or at the end of the input. An overflow carries the number
that the digits before the offending one make. -/
inductive Outcome
  | value (n : Nat)
  | overflow (n : Nat)
  | cut
  deriving DecidableEq, Repr

/-- The outcome with one more, least significant digit in front. -/
def Outcome.cons (digit : Nat) : Outcome → Outcome
  | .value n => .value (digit + 128 * n)
  | .overflow n => .overflow (digit + 128 * n)
  | .cut => .cut

/-- An outcome with the number of bytes read and the input behind them. -/
structure Scan where
  outcome : Outcome
  width : Nat
  rest : Bytes
  deriving DecidableEq, Repr

/-- Reads on after `digits` digits. The tenth has room for one bit, and an
eleventh for none. -/
def scanFrom (digits : Nat) : Bytes → Scan
  | [] => ⟨.cut, 0, []⟩
  | b :: rest =>
    let digit := b.toNat % 128
    if 10 ≤ digits ∨ digits = 9 ∧ 1 < digit then ⟨.overflow 0, 1, rest⟩
    else if b.toNat < 128 then ⟨.value digit, 1, rest⟩
    else
      let tail := scanFrom (digits + 1) rest
      ⟨tail.outcome.cons digit, tail.width + 1, tail.rest⟩

def scan (bs : Bytes) : Scan := scanFrom 0 bs

/-- A scan accounts for every byte of its input. -/
theorem scanFrom_width_add_length (digits : Nat) (bs : Bytes) :
    (scanFrom digits bs).width + (scanFrom digits bs).rest.length = bs.length := by
  fun_induction scanFrom digits bs with
  | case1 => rfl
  | case2 => exact Nat.add_comm ..
  | case3 => exact Nat.add_comm ..
  | case4 digits b rest _ _ _ tail ih =>
    have ih : tail.width + tail.rest.length = rest.length := ih
    simp only [List.length_cons]
    omega

end ShardedRecords.Base128
