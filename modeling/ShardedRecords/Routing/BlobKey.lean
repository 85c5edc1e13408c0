import ShardedRecords.LittleEndian
import ShardedRecords.Routing.RoutingError

/-!
# Blob keys

The blob of a bucket or a page is filed under its index, spelled in eight
little-endian bytes. Keys are ordered as byte strings, so their order is not that
of the indices.
-/
namespace ShardedRecords

abbrev BlobKey := Vector UInt8 8

namespace BlobKey

instance : Std.TransOrd BlobKey := inferInstanceAs (Std.TransOrd (Vector UInt8 8))

instance : Std.LawfulEqOrd BlobKey := inferInstanceAs (Std.LawfulEqOrd (Vector UInt8 8))

def pack (index : UInt64) : BlobKey :=
  ⟨(LittleEndian.spell 8 index.toNat).toArray, by simp⟩

@[simp] theorem toList_pack (index : UInt64) :
    (pack index).toList = LittleEndian.spell 8 index.toNat := by
  simp [pack, Vector.toList]

/-- The index in the first eight bytes. What follows them does not matter. -/
def unpack (bs : Bytes) : Except RoutingError UInt64 :=
  match Bytes.cut? 8 bs with
  | some (front, _) => .ok (.ofNat (LittleEndian.value front))
  | none => .error (.truncated bs.length)

end BlobKey

end ShardedRecords
