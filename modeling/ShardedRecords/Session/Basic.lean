import ShardedRecords.BlobStore
import ShardedRecords.Fault

/-!
# Sessions

A session is a front, through which records are read and written, with the store
behind it. Its history is a list of operations, during each of which some keys of
the store may be out. A failed operation leaves the session ready for the next.
-/
namespace ShardedRecords

/-- The reason why a key cannot be loaded, if it cannot. -/
abbrev Outage := BlobKey → Option String

structure Session (φ : Type) where
  front : φ
  store : BlobStore

inductive Answer
  | done
  | value (bytes : Option Bytes)
  | key (key : BlobKey)
  | place (page : BlobKey) (slot : Nat)
  | blobs (blobs : List (BlobKey × Bytes))
  | encoding (encoding : Encoding)
  deriving DecidableEq

/-- An operation on the store itself, which is the same behind every front. -/
inductive StoreOp
  | insert (index : UInt64) (blob : Bytes)
  | get (index : UInt64)
  deriving DecidableEq, Repr

/-- The store is changed and read past the front, outages or not. -/
def BlobStore.step (s : BlobStore) : StoreOp → Answer × BlobStore
  | .insert index blob => (.done, s.insert (.pack index) blob)
  | .get index => (.value s[BlobKey.pack index]?, s)

namespace Session

variable {φ : Type}

def storeStep (s : Session φ) (op : StoreOp) : Except Fault Answer × Session φ :=
  let (answer, store) := s.store.step op
  (.ok answer, { s with store })

/-- What a drain hands out, put in the store if there is no fault. -/
def commit (s : Session φ) (drained : Except Fault (List (BlobKey × Bytes)) × φ) :
    Except Fault Answer × Session φ :=
  match drained with
  | (.ok blobs, front) => (.ok (.blobs blobs), ⟨front, s.store.apply blobs⟩)
  | (.error f, front) => (.error f, { s with front })

def update (s : Session φ) (front : φ) : Except Fault Answer × Session φ :=
  (.ok .done, { s with front })

/-- An answer of the front, which may have changed. -/
def answer {α : Type} (s : Session φ) (f : α → Answer) (result : Except Fault α × φ) :
    Except Fault Answer × Session φ :=
  (result.1.map f, { s with front := result.2 })

/-- A new front over the same store. On a fault the old one stays. -/
def reopen (s : Session φ) (front : Except Fault φ) (f : φ → Answer) :
    Except Fault Answer × Session φ :=
  match front with
  | .ok front => (.ok (f front), { s with front })
  | .error fault => (.error fault, s)

end Session

end ShardedRecords
