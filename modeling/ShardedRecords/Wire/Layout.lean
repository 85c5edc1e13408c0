import ShardedRecords.Base128
import ShardedRecords.LittleEndian
import ShardedRecords.Wire.WireError

/-!
# Counts and lengths on the wire

How each encoding spells a record count and a field's length, and how many
bytes that takes. Every spelling is exactly as wide as announced.
-/
namespace ShardedRecords.Encoding

def countWidth : Encoding → Nat → Nat
  | .fixed, _ => 8
  | .varint, n => Base128.width n

def countBytes : Encoding → Nat → Bytes
  | .fixed, n => LittleEndian.spell 8 n
  | .varint, n => Base128.spell n

@[simp] theorem length_countBytes (e : Encoding) (n : Nat) :
    (e.countBytes n).length = e.countWidth n := by
  cases e <;> simp [countBytes, countWidth]

/-- A length that four bytes cannot hold is refused by the fixed encoding. -/
def lengthWidth : Encoding → Nat → Except WireError Nat
  | .fixed, n =>
    if n < LittleEndian.capacity 4 then .ok 4 else .error (.lengthOverflow .fixed n)
  | .varint, n => .ok (Base128.width n)

def lengthBytes : Encoding → Nat → Bytes
  | .fixed, n => LittleEndian.spell 4 n
  | .varint, n => Base128.spell n

theorem length_lengthBytes {e : Encoding} {n width : Nat} (h : e.lengthWidth n = .ok width) :
    (e.lengthBytes n).length = width := by
  cases e with
  | fixed =>
    simp only [lengthWidth] at h
    split at h
    · simpa [lengthBytes] using h
    · cases h
  | varint => simpa [lengthBytes, lengthWidth] using h

/-- The spelling of a length that is checked first, so that none is ever cut. -/
def checkedLengthBytes (e : Encoding) (n : Nat) : Except WireError Bytes := do
  let _ ← e.lengthWidth n
  return e.lengthBytes n

def fieldBytes (e : Encoding) (bs : Bytes) : Bytes := e.lengthBytes bs.length ++ bs

/-- What a record of two empty fields takes; no record is shorter. -/
def minRecordLength : Encoding → Nat
  | .fixed => 8
  | .varint => 2

end ShardedRecords.Encoding
