import ShardedRecords.Bytes

/-!
# The routing hash

Additive djb2 on 64-bit words. Stored data is filed by its values, so it must
give the same value in every process and for ever.
-/
namespace ShardedRecords

def hashSeed : UInt64 := 5381

def hashStep (h : UInt64) (b : UInt8) : UInt64 := h * 33 + b.toUInt64

/-- The arithmetic wraps around at 64 bits. -/
def djb2 (bs : Bytes) : UInt64 := bs.foldl hashStep hashSeed

end ShardedRecords
