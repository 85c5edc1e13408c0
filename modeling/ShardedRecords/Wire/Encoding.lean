/-!
# Encodings

Both encodings write a record count and then every field behind its length.
They differ only in how these numbers are spelled. Nothing in a buffer tells
which one was used, so a reader is always told.
-/
namespace ShardedRecords

/-- `fixed` gives a count eight bytes and a length four, least significant
first; `varint` writes both in base 128. -/
inductive Encoding
  | fixed
  | varint
  deriving DecidableEq, Repr

namespace Encoding

instance : Inhabited Encoding := ⟨fixed⟩

def name : Encoding → String
  | fixed => "fixed"
  | varint => "varint"

def ofName? (s : String) : Option Encoding :=
  if s = "fixed" then some fixed else if s = "varint" then some varint else none

theorem ofName?_eq_some_iff {s : String} {e : Encoding} :
    ofName? s = some e ↔ s = e.name := by
  unfold ofName?
  cases e <;> split <;> simp_all [name]

end Encoding

end ShardedRecords
