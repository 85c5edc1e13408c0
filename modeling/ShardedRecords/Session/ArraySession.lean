import ShardedRecords.PagedArray.Basic
import ShardedRecords.Session.Basic

/-!
# Sessions on a paged array

The operations of a paged array over a store, and what each of them answers. A
commit is a drain of which the blobs go into the store.
-/
namespace ShardedRecords

inductive ArrayOp
  | set (index : UInt64) (value : Bytes)
  | get (index : UInt64)
  | locate (index : UInt64)
  | discard
  | clearCache
  | drain
  | commit
  | reopen (config : PagedArray.Config)
  | store (op : StoreOp)
  deriving DecidableEq, Repr

abbrev ArraySession := Session PagedArray

namespace ArraySession

def step (outage : Outage) (s : ArraySession) : ArrayOp → Except Fault Answer × ArraySession
  | .set index value => s.answer (fun _ => .done) (s.front.set index value)
  | .get index => s.answer .value (s.front.get (s.store.loader outage) index)
  | .locate index => (.ok (.place (s.front.locate index).1 (s.front.locate index).2), s)
  | .discard => s.update s.front.discard
  | .clearCache => s.update s.front.clearCache
  | .drain => s.answer .blobs (s.front.drain (s.store.loader outage))
  | .commit => s.commit (s.front.drain (s.store.loader outage))
  | .reopen config => s.reopen (PagedArray.ofConfig config) fun _ => .done
  | .store op => s.storeStep op

end ArraySession

end ShardedRecords
