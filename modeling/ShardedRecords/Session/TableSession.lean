import ShardedRecords.BucketedTable.Basic
import ShardedRecords.Session.Basic

/-!
# Sessions on a bucketed table

The operations of a bucketed table over a store, and what each of them answers.
A commit is a drain of which the blobs go into the store. Records are written in
ascending order of their keys, or else in an order that comes with the operation.
-/
namespace ShardedRecords

inductive TableOp
  | put (key value : Bytes)
  | erase (key : Bytes)
  | get (key : Bytes)
  | blobKey (key : Bytes)
  | discard
  | clearCache
  | drain
  | commit
  | reopen (config : BucketedTable.Config)
  | store (op : StoreOp)
  deriving DecidableEq, Repr

abbrev TableSession := Session BucketedTable

namespace TableSession

def step (outage : Outage) (s : TableSession) : TableOp → Except Fault Answer × TableSession
  | .put key value => s.update (s.front.put key value)
  | .erase key => s.update (s.front.erase key)
  | .get key => s.answer .value (s.front.get (s.store.loader outage) key)
  | .blobKey key => (.ok (.key (s.front.blobKey key)), s)
  | .discard => s.update s.front.discard
  | .clearCache => s.update s.front.clearCache
  | .drain => s.answer .blobs (s.front.drain (s.store.loader outage))
  | .commit => s.commit (s.front.drain (s.store.loader outage))
  | .reopen config => s.reopen (BucketedTable.ofConfig config) fun table => .encoding table.encoding
  | .store op => s.storeStep op

/-- An operation, with the order in which it writes the records of each bucket. -/
structure OrderedOp where
  op : TableOp
  order : BlobKey → RecordOrder

/-- Only drains and commits write records. -/
def stepIn (outage : Outage) (s : TableSession) (o : OrderedOp) :
    Except Fault Answer × TableSession :=
  match o.op with
  | .drain => s.answer .blobs (s.front.drainIn o.order (s.store.loader outage))
  | .commit => s.commit (s.front.drainIn o.order (s.store.loader outage))
  | op => s.step outage op

theorem stepIn_ascending (outage : Outage) (s : TableSession) (op : TableOp) :
    s.stepIn outage ⟨op, fun _ => .ascending⟩ = s.step outage op := by
  cases op <;> rfl

end TableSession

end ShardedRecords
