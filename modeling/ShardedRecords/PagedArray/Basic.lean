import ShardedRecords.PagedArray.Config
import ShardedRecords.Overlay

/-!
# Paged arrays

One long array of equal slots, cut into pages. Each stored blob is one page, and
a page has the slots that its blob has room for: writing never makes it longer.
Writes are staged until the array is drained.
-/
namespace ShardedRecords

namespace Slots

/-- A missing blob is an empty page. Slots are written in ascending order. -/
def blobKind (width : Nat) : BlobKind Nat Bytes Bytes where
  read blob := .ok (blob.getD [])
  merge _ page changes :=
    ((patch page width changes.toList).mapError .slots).map fun page => (page, page)

end Slots

structure PagedArray where
  pageSize : UInt64
  slotWidth : UInt64
  overlay : Overlay Nat Bytes Bytes

namespace PagedArray

def ofConfig (c : PagedArray.Config) : Except Fault PagedArray :=
  c.validate.map fun _ => ⟨c.pageSize, c.slotWidth, .empty⟩

def width (a : PagedArray) : Nat := a.slotWidth.toNat

/-- The page that holds an index, and the slot in it. -/
def locate (a : PagedArray) (index : UInt64) : BlobKey × Nat :=
  (.pack (index / a.pageSize), (index % a.pageSize).toNat)

/-- A value of the wrong length is refused and changes nothing. -/
def set (a : PagedArray) (index : UInt64) (value : Bytes) : Except Fault Unit × PagedArray :=
  let (page, slot) := a.locate index
  if value.length = a.width then (.ok (), { a with overlay := a.overlay.stage page slot value })
  else (.error (.slots (.wrongLength slot value.length a.width)), a)

/-- A staged value answers without the store. -/
def get (load : Loader) (a : PagedArray) (index : UInt64) :
    Except Fault (Option Bytes) × PagedArray :=
  let (page, slot) := a.locate index
  match a.overlay.change? page slot with
  | some value => (.ok (some value), a)
  | none =>
    let (blob, overlay) := a.overlay.fetch (Slots.blobKind a.width) load page
    (blob.map fun bs => Slots.get? bs slot a.width, { a with overlay })

def discard (a : PagedArray) : PagedArray := { a with overlay := a.overlay.discard }

def clearCache (a : PagedArray) : PagedArray := { a with overlay := a.overlay.clearCache }

def drain (load : Loader) (a : PagedArray) :
    Except Fault (List (BlobKey × Bytes)) × PagedArray :=
  let (blobs, overlay) := a.overlay.drain (Slots.blobKind a.width) load
  (blobs, { a with overlay })

end PagedArray

end ShardedRecords
