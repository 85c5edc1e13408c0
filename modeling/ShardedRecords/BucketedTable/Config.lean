import ShardedRecords.ConfigText.Format
import ShardedRecords.Fault
import ShardedRecords.Routing.Router

/-!
# Configuration of bucketed tables

The number of buckets and the encoding of their blobs. In a text every field
may be left out, and a configuration that cannot be used can still be written
and read; it is refused when a table is made of it.
-/
namespace ShardedRecords

open ConfigText

structure BucketedTable.Config where
  bucketCount : UInt64
  encoding : Encoding
  deriving DecidableEq, Repr

namespace BucketedTable.Config

def defaultBucketCount : UInt64 := 1024

instance : Inhabited BucketedTable.Config := ⟨⟨defaultBucketCount, .fixed⟩⟩

def router (c : BucketedTable.Config) : Except Fault Router :=
  (Router.ofCount c.bucketCount).mapError .routing

/-- Both fields may be left out. -/
def recordType : RecordType UInt64 Encoding where
  first := ⟨"num_buckets", .word, some (default : BucketedTable.Config).bucketCount⟩
  second := ⟨"encoding", .choice Encoding.name Encoding.ofName? fun _ _ =>
    Encoding.ofName?_eq_some_iff, some (default : BucketedTable.Config).encoding⟩
  closed := true
  distinct := by decide

def ofText? (L : TextFormat) (s : String) : Option BucketedTable.Config :=
  (L.read? recordType s).map fun (bucketCount, encoding) => ⟨bucketCount, encoding⟩

def toText (L : TextFormat) (c : BucketedTable.Config) : String :=
  L.write recordType (c.bucketCount, c.encoding)

end BucketedTable.Config

end ShardedRecords
