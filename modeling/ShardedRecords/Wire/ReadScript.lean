import ShardedRecords.Wire.Cursor

/-!
# Scripts of reads

A script is a list of reads on one buffer. It goes on after a failed read, and
it can remember the cursor and go back to it.
-/
namespace ShardedRecords

inductive ReadStep
  | take (n : Nat)
  | u32
  | u64
  | base128
  | count (encoding : Encoding)
  | length (encoding : Encoding)
  | field (encoding : Encoding)
  | save
  | restore
  deriving DecidableEq, Repr

inductive Reading
  | nothing
  | number (n : Nat)
  | bytes (bs : Bytes)
  deriving DecidableEq, Repr

/-- The cursor of a script, with the one it would go back to. -/
structure ReadState where
  cursor : Cursor
  saved : Cursor
  deriving DecidableEq, Repr

namespace ReadState

/-- Until a cursor is saved, going back leads to the start. -/
def ofBytes (buf : Bytes) : ReadState := ⟨.ofBytes buf, .ofBytes buf⟩

def read (s : ReadState) (r : Reader Reading) : Except WireError Reading × ReadState :=
  let (answer, cursor) := s.cursor.read r
  (answer, { s with cursor })

def step (s : ReadState) : ReadStep → Except WireError Reading × ReadState
  | .take n => s.read (.bytes <$> .take n)
  | .u32 => s.read (.number <$> .littleEndian 4)
  | .u64 => s.read (.number <$> .littleEndian 8)
  | .base128 => s.read (.number <$> .base128)
  | .count e => s.read (.number <$> .count e)
  | .length e => s.read (.number <$> .length e)
  | .field e => s.read (.bytes <$> .field e)
  | .save => (.ok .nothing, { s with saved := s.cursor })
  | .restore => (.ok .nothing, { s with cursor := s.saved })

/-- What each step answers, with the state behind it. -/
def run (s : ReadState) : List ReadStep → List (Except WireError Reading × ReadState)
  | [] => []
  | r :: rs =>
    let after := s.step r
    after :: run after.2 rs

end ReadState

end ShardedRecords
