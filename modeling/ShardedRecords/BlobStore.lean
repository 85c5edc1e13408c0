import Std.Data.ExtTreeMap
import ShardedRecords.Bytes
import ShardedRecords.Routing.BlobKey

/-!
# Blob stores

Stored blobs are read through a loader, which answers for each key with a blob,
with none, or with the reason why it cannot answer.
-/
namespace ShardedRecords

abbrev Loader := BlobKey → Except String (Option Bytes)

/-- A store that holds its blobs in memory. -/
abbrev BlobStore := Std.ExtTreeMap BlobKey Bytes

namespace BlobStore

def ofIndexed (blobs : List (UInt64 × Bytes)) : BlobStore :=
  blobs.foldl (fun s blob => s.insert (.pack blob.1) blob.2) ∅

/-- Puts in the blobs in order, so of two under one key the later stays. -/
def apply (s : BlobStore) (writes : List (BlobKey × Bytes)) : BlobStore :=
  writes.foldl (fun s write => s.insert write.1 write.2) s

/-- Answers from the store, except for the keys that are out. -/
def loader (s : BlobStore) (outage : BlobKey → Option String) : Loader := fun key =>
  match outage key with
  | some reason => .error reason
  | none => .ok s[key]?

end BlobStore

end ShardedRecords
