import ShardedRecords.Routing.BlobKey
import ShardedRecords.Routing.Hash

/-!
# Routers

A router sends every key to one of a fixed, positive number of buckets.
-/
namespace ShardedRecords

structure Router where
  bucketCount : UInt64
  bucketCount_ne_zero : bucketCount ≠ 0
  deriving DecidableEq, Repr

namespace Router

def ofCount (n : UInt64) : Except RoutingError Router :=
  if h : n = 0 then .error .noBuckets else .ok ⟨n, h⟩

def index (r : Router) (key : Bytes) : UInt64 := djb2 key % r.bucketCount

theorem index_lt (r : Router) (key : Bytes) : r.index key < r.bucketCount :=
  UInt64.mod_lt _ (UInt64.pos_iff_ne_zero.mpr r.bucketCount_ne_zero)

/-- The key of the blob that holds the bucket of a key. -/
def blobKey (r : Router) (key : Bytes) : BlobKey := .pack (r.index key)

/-- The bucket of a key among `n` buckets. -/
def indexAmong (n : UInt64) (key : Bytes) : Except RoutingError UInt64 :=
  (ofCount n).map (·.index key)

/-- The key of the blob that holds the bucket of a key among `n` buckets. -/
def blobKeyAmong (n : UInt64) (key : Bytes) : Except RoutingError BlobKey :=
  (indexAmong n key).map .pack

end Router

end ShardedRecords
