import ShardedRecords.Routing.RoutingError
import ShardedRecords.Slots
import ShardedRecords.Wire.WireError

/-!
# Faults

A table or an array over a store works with several parts that can fail. The
fault says which of them did, and keeps its cause.
-/
namespace ShardedRecords

inductive Fault
  | wire (cause : WireError)
  | routing (cause : RoutingError)
  | slots (cause : SlotError)
  | noSlotWidth
  | store (reason : String)
  deriving DecidableEq, Repr

namespace Fault

def message : Fault → String
  | wire cause => "codec: " ++ cause.message
  | routing cause => "bucket: " ++ cause.message
  | slots cause => "patch: " ++ cause.message
  | noSlotWidth => "invalid config: slot_width must be non-zero"
  | store reason => "store: " ++ reason

/-- Whether the caller is at fault, rather than the stored bytes or the store. -/
def isCallerBug : Fault → Bool
  | wire cause => cause.isCallerBug
  | routing cause => cause.isCallerBug
  | slots cause => cause.isCallerBug
  | noSlotWidth => true
  | store _ => false

end Fault

end ShardedRecords
