import ShardedRecords.Fault
import ShardedRecords.BlobStore

/-!
# Staged changes over stored blobs

An overlay holds the changes that are not yet written, filed by the blob that
they will change, and the contents of the blobs that were read or written. A
blob is read once: contents stay until they are dropped, and a drained blob is
kept in its new form.

What blobs hold is a parameter. `κ` names the places in a blob, `δ` is what is
staged for a place, and `γ` is the contents of a whole blob. How contents are
written may differ from blob to blob.
-/
namespace ShardedRecords

/-- How the contents of a blob are read, where there is one, and how changes go
into them. Merging answers with the new contents and the blob that holds them. -/
structure BlobKind (κ δ γ : Type) [Ord κ] where
  read : Option Bytes → Except Fault γ
  merge : BlobKey → γ → Std.ExtTreeMap κ δ → Except Fault (γ × Bytes)

/-- The contents and the written form of a blob after a merge. -/
structure MergedBlob (γ : Type) where
  key : BlobKey
  content : γ
  blob : Bytes

structure Overlay (κ δ γ : Type) [Ord κ] where
  staged : Std.ExtTreeMap BlobKey (Std.ExtTreeMap κ δ)
  cache : Std.ExtTreeMap BlobKey γ

namespace Overlay

variable {κ δ γ : Type} [Ord κ] [Std.TransOrd κ]

def empty : Overlay κ δ γ := ⟨∅, ∅⟩

/-- A later change to a place replaces an earlier one. -/
def stage (o : Overlay κ δ γ) (key : BlobKey) (place : κ) (change : δ) : Overlay κ δ γ :=
  { o with staged := o.staged.insert key ((o.staged[key]?.getD ∅).insert place change) }

def change? (o : Overlay κ δ γ) (key : BlobKey) (place : κ) : Option δ :=
  o.staged[key]? >>= fun changes => changes[place]?

@[simp] theorem change?_empty (key : BlobKey) (place : κ) :
    (empty : Overlay κ δ γ).change? key place = none := by
  simp [change?, empty]

theorem change?_stage [DecidableEq κ] [Std.LawfulEqOrd κ] (o : Overlay κ δ γ) (key : BlobKey)
    (place : κ) (change : δ) (key' : BlobKey) (place' : κ) :
    (o.stage key place change).change? key' place' =
      if key = key' ∧ place = place' then some change else o.change? key' place' := by
  simp only [change?, stage, Std.ExtTreeMap.getElem?_insert, Std.compare_eq_iff_eq]
  by_cases h : key = key'
  · subst h
    cases hs : o.staged[key]? <;> by_cases hp : place = place' <;>
      simp [hp, Std.ExtTreeMap.getElem?_insert]
  · simp [h]

def stagedBlobs (o : Overlay κ δ γ) : Nat := o.staged.size

def stagedChanges (o : Overlay κ δ γ) : Nat :=
  o.staged.foldl (fun n _ changes => n + changes.size) 0

def isEmpty (o : Overlay κ δ γ) : Bool := o.staged.isEmpty

def discard (o : Overlay κ δ γ) : Overlay κ δ γ := { o with staged := ∅ }

@[simp] theorem change?_discard (o : Overlay κ δ γ) (key : BlobKey) (place : κ) :
    o.discard.change? key place = none := by
  simp [change?, discard]

def clearCache (o : Overlay κ δ γ) : Overlay κ δ γ := { o with cache := ∅ }

@[simp] theorem change?_clearCache (o : Overlay κ δ γ) (key : BlobKey) (place : κ) :
    o.clearCache.change? key place = o.change? key place := rfl

/-- The contents that changes go on top of: from the cache, else from the store. -/
def base (kind : BlobKind κ δ γ) (load : Loader) (o : Overlay κ δ γ) (key : BlobKey) :
    Except Fault γ :=
  match o.cache[key]? with
  | some content => .ok content
  | none => match load key with
    | .ok blob => kind.read blob
    | .error reason => .error (.store reason)

/-- The contents of a blob without its staged changes, which are cached. -/
def fetch (kind : BlobKind κ δ γ) (load : Loader) (o : Overlay κ δ γ) (key : BlobKey) :
    Except Fault γ × Overlay κ δ γ :=
  match o.base kind load key with
  | .ok content => (.ok content, { o with cache := o.cache.insert key content })
  | .error f => (.error f, o)

def mergeBlob (kind : BlobKind κ δ γ) (load : Loader) (o : Overlay κ δ γ)
    (entry : BlobKey × Std.ExtTreeMap κ δ) : Except Fault (MergedBlob γ) := do
  let base ← o.base kind load entry.1
  let (content, blob) ← kind.merge entry.1 base entry.2
  return ⟨entry.1, content, blob⟩

/-- Every blob with staged changes, merged, in the order of the keys. The first
that fails decides the fault. -/
def merged (kind : BlobKind κ δ γ) (load : Loader) (o : Overlay κ δ γ) :
    Except Fault (List (MergedBlob γ)) :=
  o.staged.toList.mapM (o.mergeBlob kind load)

/-- Hands out the merged blobs, after which nothing is staged. A fault consumes
nothing. -/
def drain (kind : BlobKind κ δ γ) (load : Loader) (o : Overlay κ δ γ) :
    Except Fault (List (BlobKey × Bytes)) × Overlay κ δ γ :=
  match o.merged kind load with
  | .error f => (.error f, o)
  | .ok blobs =>
    (.ok (blobs.map fun m => (m.key, m.blob)),
      ⟨∅, blobs.foldl (fun cache m => cache.insert m.key m.content) o.cache⟩)

end Overlay

end ShardedRecords
