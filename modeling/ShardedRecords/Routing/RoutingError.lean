/-!
# What can go wrong in routing
-/
namespace ShardedRecords

inductive RoutingError
  | noBuckets
  | truncated (length : Nat)
  deriving DecidableEq, Repr

namespace RoutingError

def message : RoutingError → String
  | noBuckets => "number of buckets must be non-zero"
  | truncated length => s!"packed index needs 8 bytes, got {length}"

/-- Whether the arguments of the call are at fault, rather than the bytes read. -/
def isCallerBug : RoutingError → Bool
  | noBuckets => true
  | truncated _ => false

end RoutingError

end ShardedRecords
