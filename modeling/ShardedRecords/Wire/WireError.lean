import ShardedRecords.Wire.Encoding

/-!
# What can go wrong on the wire

A writer is refused for its arguments; a reader fails on the bytes it is given.
The one exception is a length too large for its field: in the fixed encoding
only a writer meets it, in base 128 a reader, and a writer only of a message whose
size is itself too large.
-/
namespace ShardedRecords

inductive EntryPart
  | key
  | value
  deriving DecidableEq, Repr

def EntryPart.name : EntryPart → String
  | key => "key"
  | value => "value"

inductive WireError
  | notBytes (index : Nat) (part : EntryPart)
  | lengthOverflow (encoding : Encoding) (length : Nat)
  | truncated (offset needed remaining : Nat)
  deriving DecidableEq, Repr

namespace WireError

def message : WireError → String
  | notBytes index part =>
    let what := part.name
    s!"entry {index}: {what} is not a byte sequence"
  | lengthOverflow encoding length =>
    let name := encoding.name
    s!"{name} encoding cannot represent length {length}"
  | truncated offset needed remaining =>
    s!"truncated buffer: needed {needed} bytes at offset {offset}, {remaining} remaining"

/-- Whether the arguments of the call are at fault, rather than the bytes read. -/
def isCallerBug : WireError → Bool
  | notBytes .. => true
  | lengthOverflow encoding _ => encoding = .fixed
  | truncated .. => false

end WireError

end ShardedRecords
