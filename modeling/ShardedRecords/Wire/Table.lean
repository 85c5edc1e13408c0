import Std.Data.ExtTreeMap
import ShardedRecords.Wire.Sink

/-!
# Tables

A table binds byte strings to byte strings. Two tables with the same bindings
are equal, so that a table read from a message depends on nothing but the last
record of each key. A table does not say in which order its records are written:
whoever writes it from a hash map meets them in an order of that map's own, which
may be another one each time, so the order is given along with the table. Where
messages are compared byte by byte, the keys are in ascending order.
-/
namespace ShardedRecords

abbrev Table := Std.ExtTreeMap Bytes Bytes

namespace Table

def insertRecord (t : Table) (r : Record) : Table := t.insert r.key r.value

/-- Later records replace earlier ones of the same key. -/
def ofRecords (rs : List Record) : Table := rs.foldl insertRecord ∅

instance : LawfulSink Table where
  withCapacity _ := ∅
  insert t key value := t.insert key value
  lookup t key := t[key]?
  lookup_withCapacity _ _ := Std.ExtTreeMap.getElem?_empty
  lookup_insert t key value key' := by
    simp [Std.ExtTreeMap.getElem?_insert]

def decode (e : Encoding) (buf : Bytes) : Except WireError Table := decodeInto Table e buf

end Table

/-- The order in which the records of a table are written: each record once. -/
structure RecordOrder where
  list : Table → List (Bytes × Bytes)
  perm (t : Table) : (list t).Perm t.toList

namespace RecordOrder

def ascending : RecordOrder := ⟨fun t => t.toList, fun t => .refl t.toList⟩

instance : Inhabited RecordOrder := ⟨ascending⟩

end RecordOrder

namespace Table

/-- One record for each key, in the given order. -/
def encodeIn (order : RecordOrder) (e : Encoding) (t : Table) : Except WireError Bytes :=
  ShardedRecords.encode e (order.list t)

/-- One record for each key, in ascending order of the keys. -/
def encode (e : Encoding) (t : Table) : Except WireError Bytes := t.encodeIn .ascending e

end Table

end ShardedRecords
