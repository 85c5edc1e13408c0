import ShardedRecords.Wire.Layout

/-!
# Bounds-checked reading

A cursor holds the bytes not yet read and the offset of the first of them. A
read either answers with bytes of the buffer or fails, and in both cases leaves
a cursor behind: a failed read of a fixed width stays where it was, a failed
base-128 read stays behind the bytes it looked at, and a field whose bytes are
missing stays behind its length.
-/
namespace ShardedRecords

structure Cursor where
  pos : Nat
  rest : Bytes
  deriving DecidableEq, Repr

namespace Cursor

def ofBytes (buf : Bytes) : Cursor := ⟨0, buf⟩

/-- At an offset that may lie behind the end, where nothing is left to read. -/
def ofBytesAt (buf : Bytes) (pos : Nat) : Cursor := ⟨pos, buf.drop pos⟩

def remaining (c : Cursor) : Nat := c.rest.length

def isEmpty (c : Cursor) : Bool := c.rest.isEmpty

theorem isEmpty_iff_remaining (c : Cursor) : c.isEmpty = true ↔ c.remaining = 0 := by
  simp [isEmpty, remaining]

end Cursor

/-- A read answers or fails, and moves the cursor in either case. -/
abbrev Reader := ExceptT WireError (StateM Cursor)

/-- What a read answers at a cursor, and the cursor it leaves. -/
def Cursor.read {α : Type} (c : Cursor) (r : Reader α) : Except WireError α × Cursor := r.run c

@[simp] theorem Cursor.read_pure {α : Type} (c : Cursor) (a : α) :
    c.read (pure a) = (.ok a, c) := rfl

theorem Cursor.read_bind {α β : Type} (c : Cursor) (r : Reader α) (f : α → Reader β) :
    c.read (r >>= f) = match c.read r with
      | (.ok a, c') => c'.read (f a)
      | (.error fault, c') => (.error fault, c') := by
  change ExceptT.bindCont f (c.read r).1 (c.read r).2 = _
  rcases c.read r with ⟨fault | a, c'⟩ <;> rfl

namespace Reader

/-- The next `n` bytes. The whole answer or none: a failure does not move. -/
def take (n : Nat) : Reader Bytes := ExceptT.mk fun c =>
  match Bytes.cut? n c.rest with
  | some (front, rest) => (.ok front, ⟨c.pos + n, rest⟩)
  | none => (.error (.truncated c.pos n c.remaining), c)

def littleEndian (width : Nat) : Reader Nat := do
  let bytes ← take width
  return LittleEndian.value bytes

/-- A number in base 128. At the end of the buffer it lacks at least one more
byte than there is. -/
def base128 : Reader Nat := ExceptT.mk fun c =>
  let scan := Base128.scan c.rest
  let answer := match scan.outcome with
    | .value n => .ok n
    | .overflow n => .error (.lengthOverflow .varint n)
    | .cut => .error (.truncated c.pos (c.remaining + 1) c.remaining)
  (answer, ⟨c.pos + scan.width, scan.rest⟩)

def count : Encoding → Reader Nat
  | .fixed => littleEndian 8
  | .varint => base128

def length : Encoding → Reader Nat
  | .fixed => littleEndian 4
  | .varint => base128

def field (e : Encoding) : Reader Bytes := do
  let n ← length e
  take n

end Reader

theorem Cursor.read_take (c : Cursor) (n : Nat) :
    c.read (.take n) = match Bytes.cut? n c.rest with
      | some (front, rest) => (.ok front, ⟨c.pos + n, rest⟩)
      | none => (.error (.truncated c.pos n c.remaining), c) := rfl

theorem Cursor.read_base128 (c : Cursor) :
    c.read .base128 = (match (Base128.scan c.rest).outcome with
      | .value n => .ok n
      | .overflow n => .error (.lengthOverflow .varint n)
      | .cut => .error (.truncated c.pos (c.remaining + 1) c.remaining),
      ⟨c.pos + (Base128.scan c.rest).width, (Base128.scan c.rest).rest⟩) := rfl

end ShardedRecords
