import ShardedRecords.Wire.Layout

/-!
# Writing a message

Writing runs in two phases. A plan is made of the caller's entries: each
is checked to be a byte sequence that fits its length field, and the exact size
is summed in 64 bits. What a plan holds can then be written without any further
check.
-/
namespace ShardedRecords

structure Record where
  key : Bytes
  value : Bytes
  deriving DecidableEq, Repr

namespace Record

def bytes (e : Encoding) (r : Record) : Bytes := e.fieldBytes r.key ++ e.fieldBytes r.value

/-- The size of the written record. The key is checked before the value. -/
def width (e : Encoding) (r : Record) : Except WireError Nat := do
  let keyWidth ← e.lengthWidth r.key.length
  let valueWidth ← e.lengthWidth r.value.length
  return keyWidth + r.key.length + (valueWidth + r.value.length)

theorem length_bytes {e : Encoding} {r : Record} {n : Nat} (h : r.width e = .ok n) :
    (r.bytes e).length = n := by
  unfold width at h
  cases hk : e.lengthWidth r.key.length with
  | error f => rw [hk] at h; cases h
  | ok k => cases hv : e.lengthWidth r.value.length with
    | error f => rw [hk, hv] at h; cases h
    | ok v =>
      rw [hk, hv] at h
      cases h
      simp [bytes, Encoding.fieldBytes, Encoding.length_lengthBytes hk,
        Encoding.length_lengthBytes hv, Nat.add_assoc]

end Record

/-- Values that may hold a byte sequence, and may also mark that there is none. -/
class HasBytes (α : Type) where
  bytes? : α → Option Bytes

namespace HasBytes

instance : HasBytes Bytes := ⟨some⟩

instance {α : Type} [HasBytes α] : HasBytes (Option α) := ⟨fun a => a.bind bytes?⟩

end HasBytes

/-- Checked records in the order in which they are written, with the size of
all of them. -/
structure Plan where
  encoding : Encoding
  records : List Record
  bodyLength : Nat
  deriving DecidableEq, Repr

namespace Plan

variable {α β : Type} [HasBytes α] [HasBytes β]

/-- The record of the entry at a position, with its size. The key is looked at
before the value, and both before either length. -/
def entry (e : Encoding) (index : Nat) (key : α) (value : β) : Except WireError (Record × Nat) :=
  match HasBytes.bytes? key with
  | none => .error (.notBytes index .key)
  | some key => match HasBytes.bytes? value with
    | none => .error (.notBytes index .value)
    | some value => (Record.width e ⟨key, value⟩).map fun width => (⟨key, value⟩, width)

/-- A size is a 64-bit number. A sum that is none is refused with the greatest. -/
def addSize (e : Encoding) (total width : Nat) : Except WireError Nat :=
  if total + width < UInt64.size then .ok (total + width)
  else .error (.lengthOverflow e (UInt64.size - 1))

/-- The plan of entries of which the first stands at position `index`, behind
records that take `total` bytes. The first entry that cannot be written decides
the error. -/
def ofEntriesFrom (e : Encoding) (index total : Nat) : List (α × β) → Except WireError Plan
  | [] => .ok ⟨e, [], total⟩
  | (key, value) :: entries => do
    let (record, width) ← entry e index key value
    let total ← addSize e total width
    let plan ← ofEntriesFrom e (index + 1) total entries
    return { plan with records := record :: plan.records }

def ofEntries (e : Encoding) (entries : List (α × β)) : Except WireError Plan :=
  ofEntriesFrom e 0 0 entries

def size (p : Plan) : Nat := p.records.length

def isEmpty (p : Plan) : Bool := p.records.isEmpty

def byteSize (p : Plan) : Nat := p.encoding.countWidth p.size + p.bodyLength

def toBytes (p : Plan) : Bytes :=
  p.encoding.countBytes p.size ++ p.records.flatMap (Record.bytes p.encoding)

end Plan

section

variable {α β : Type} [HasBytes α] [HasBytes β]

/-- The message that holds the entries in the given order, repeats included. -/
def encode (e : Encoding) (entries : List (α × β)) : Except WireError Bytes :=
  (Plan.ofEntries e entries).map Plan.toBytes

/-- The length of the message, without writing it. -/
def encodedLength (e : Encoding) (entries : List (α × β)) : Except WireError Nat :=
  (Plan.ofEntries e entries).map Plan.byteSize

end

end ShardedRecords
