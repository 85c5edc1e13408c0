import ShardedRecords.Proofs.Batching
import ShardedRecords.Proofs.BucketedTable.Placement
import ShardedRecords.Proofs.BucketedTable.Reads
import ShardedRecords.Proofs.CallerBugs
import ShardedRecords.Proofs.Configs
import ShardedRecords.Proofs.Confinement
import ShardedRecords.Proofs.Counting
import ShardedRecords.Proofs.PagedArray.Drain
import ShardedRecords.Proofs.Routing.Collisions
import ShardedRecords.Proofs.Slots.Tiling
import ShardedRecords.Proofs.Wire.Bounds
import ShardedRecords.Proofs.Wire.MissingBytes
import ShardedRecords.Proofs.Wire.Numbers
import ShardedRecords.Proofs.Wire.Reencoding
import ShardedRecords.Proofs.Wire.Scripts
import ShardedRecords.Proofs.ConfigText.Token
import ShardedRecords.Proofs.ConfigText.Json
