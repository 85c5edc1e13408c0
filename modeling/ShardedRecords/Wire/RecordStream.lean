import ShardedRecords.Wire.Cursor
import ShardedRecords.Wire.Plan

/-!
# Reading records

A message is read record by record, until as many as its count declares are
read or one of them fails. The count is not trusted for anything else: how many
records can still come is bounded by the bytes that are left.
-/
namespace ShardedRecords

namespace Reader

def record (e : Encoding) : Reader Record := do
  let key ← field e
  let value ← field e
  return ⟨key, value⟩

def records (e : Encoding) : Nat → Reader (List Record)
  | 0 => return []
  | n + 1 => do
    let first ← record e
    let others ← records e n
    return first :: others

/-- All records of a message. What follows them is left unread. -/
def message (e : Encoding) : Reader (List Record) := do
  let n ← count e
  records e n

end Reader

/-- A message of which the count and some of the records were read. -/
structure RecordStream where
  encoding : Encoding
  declared : Nat
  left : Nat
  cursor : Cursor
  deriving DecidableEq, Repr

namespace RecordStream

def ofBytes (e : Encoding) (buf : Bytes) : Except WireError RecordStream :=
  match (Cursor.ofBytes buf).read (.count e) with
  | (.ok n, cursor) => .ok ⟨e, n, n, cursor⟩
  | (.error f, _) => .error f

/-- The number of records that can still come: of those declared, as many as
could fit if all of them were empty. -/
def bound (s : RecordStream) : Nat :=
  min s.left (s.cursor.remaining / s.encoding.minRecordLength)

/-- The next record, or the fault that takes its place and ends the stream. -/
def next (s : RecordStream) : Option (Except WireError Record) × RecordStream :=
  match s.left with
  | 0 => (none, s)
  | left + 1 => match s.cursor.read (.record s.encoding) with
    | (.ok r, cursor) => (some (.ok r), { s with left, cursor })
    | (.error f, cursor) => (some (.error f), { s with left := 0, cursor })

theorem left_lt_of_next {s s' : RecordStream} {r : Record}
    (h : s.next = (some (.ok r), s')) : s'.left < s.left := by
  unfold next at h
  split at h
  · cases h
  · rename_i left hleft
    split at h <;> cases h
    exact hleft ▸ Nat.lt_succ_self left

end RecordStream

end ShardedRecords
