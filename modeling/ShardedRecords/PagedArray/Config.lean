import ShardedRecords.ConfigText.Format
import ShardedRecords.Fault

/-!
# Configuration of paged arrays

The number of slots of a page and the width of a slot. The width has no
default, so a text must give it.
-/
namespace ShardedRecords

open ConfigText

structure PagedArray.Config where
  pageSize : UInt64
  slotWidth : UInt64
  deriving DecidableEq, Repr

namespace PagedArray.Config

def defaultPageSize : UInt64 := 1024

def ofSlotWidth (slotWidth : UInt64) : PagedArray.Config := ⟨defaultPageSize, slotWidth⟩

/-- The page size is looked at first. -/
def validate (c : PagedArray.Config) : Except Fault Unit :=
  if c.pageSize = 0 then .error (.routing .noBuckets)
  else if c.slotWidth = 0 then .error .noSlotWidth
  else .ok ()

/-- The width must be given. -/
def recordType : RecordType UInt64 UInt64 where
  first := ⟨"page_size", .word, some defaultPageSize⟩
  second := ⟨"slot_width", .word, none⟩
  closed := true
  distinct := by decide

def ofText? (L : TextFormat) (s : String) : Option PagedArray.Config :=
  (L.read? recordType s).map fun (pageSize, slotWidth) => ⟨pageSize, slotWidth⟩

def toText (L : TextFormat) (c : PagedArray.Config) : String :=
  L.write recordType (c.pageSize, c.slotWidth)

end PagedArray.Config

end ShardedRecords
