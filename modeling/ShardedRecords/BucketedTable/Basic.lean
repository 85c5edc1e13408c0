import ShardedRecords.BucketedTable.Changes
import ShardedRecords.BucketedTable.Config
import ShardedRecords.Overlay

/-!
# Bucketed tables

One table, spread over buckets by the hash of the key. Each stored blob is the
message of one bucket's table. Writes are staged until the table is drained,
which writes the records of each bucket in an order of its own.
-/
namespace ShardedRecords

namespace Table

/-- A missing blob is an empty table. -/
def ofBlob (e : Encoding) : Option Bytes → Except Fault Table
  | none => .ok ∅
  | some blob => (decode e blob).mapError .wire

/-- Tables with their records written in the order that is given for the bucket. -/
def blobKindIn (order : BlobKey → RecordOrder) (e : Encoding) : BlobKind Bytes Change Table where
  read := ofBlob e
  merge bucket t changes :=
    let t := t.applyChanges changes
    ((t.encodeIn (order bucket) e).mapError .wire).map fun blob => (t, blob)

def blobKind (e : Encoding) : BlobKind Bytes Change Table := blobKindIn (fun _ => .ascending) e

end Table

structure BucketedTable where
  router : Router
  encoding : Encoding
  overlay : Overlay Bytes Change Table

namespace BucketedTable

def ofConfig (c : BucketedTable.Config) : Except Fault BucketedTable :=
  c.router.map fun router => ⟨router, c.encoding, .empty⟩

def blobKey (t : BucketedTable) (key : Bytes) : BlobKey := t.router.blobKey key

def stage (t : BucketedTable) (key : Bytes) (change : Change) : BucketedTable :=
  { t with overlay := t.overlay.stage (t.blobKey key) key change }

def put (t : BucketedTable) (key value : Bytes) : BucketedTable := t.stage key (.put value)

def erase (t : BucketedTable) (key : Bytes) : BucketedTable := t.stage key .erase

/-- A staged change answers without the store. -/
def get (load : Loader) (t : BucketedTable) (key : Bytes) :
    Except Fault (Option Bytes) × BucketedTable :=
  match t.overlay.change? (t.blobKey key) key with
  | some change => (.ok change.value?, t)
  | none =>
    let (table, overlay) := t.overlay.fetch (Table.blobKind t.encoding) load (t.blobKey key)
    (table.map (·[key]?), { t with overlay })

def discard (t : BucketedTable) : BucketedTable := { t with overlay := t.overlay.discard }

def clearCache (t : BucketedTable) : BucketedTable := { t with overlay := t.overlay.clearCache }

/-- A drain that writes the records of each bucket in the given order. -/
def drainIn (order : BlobKey → RecordOrder) (load : Loader) (t : BucketedTable) :
    Except Fault (List (BlobKey × Bytes)) × BucketedTable :=
  let (blobs, overlay) := t.overlay.drain (Table.blobKindIn order t.encoding) load
  (blobs, { t with overlay })

/-- A drain that writes all records in ascending order of their keys. -/
def drain (load : Loader) (t : BucketedTable) :
    Except Fault (List (BlobKey × Bytes)) × BucketedTable :=
  t.drainIn (fun _ => .ascending) load

end BucketedTable

end ShardedRecords
