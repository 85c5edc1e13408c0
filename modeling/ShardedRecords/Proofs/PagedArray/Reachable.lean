import ShardedRecords.Proofs.Overlay.Soundness
import ShardedRecords.Proofs.PagedArray.Basic

/-!
# Arrays as they are used

An array is used from when it is opened, with any store at each read and each drain, or
with any store of a kind. What is staged has the length of a slot at all times.
-/
namespace ShardedRecords

/-- All loaded pages are shorter than 2^63 bytes. -/
def Loader.Short (load : Loader) : Prop :=
  ∀ (page : BlobKey) blob, load page = .ok (some blob) → blob.length < UInt64.size / 2

theorem Loader.Short.reads {load : Loader} (h : load.Short) (width : Nat) (page : BlobKey) :
    (Slots.blobKind width).Reads load (fun _ page => page.length < UInt64.size / 2) page := by
  intro blob content hload hread
  cases hread
  cases blob with
  | none => decide
  | some blob => exact h page blob hload

namespace PagedArray

variable {Usable : Loader → Prop} {config : PagedArray.Config} {a : PagedArray}

/-- What an array can be after any operations, with usable stores behind it. -/
inductive Reachable (Usable : Loader → Prop) (config : PagedArray.Config) : PagedArray → Prop
  | opened {a : PagedArray} : ofConfig config = .ok a → Reachable Usable config a
  | set {a : PagedArray} (index : UInt64) (value : Bytes) :
      Reachable Usable config a → Reachable Usable config (a.set index value).2
  | get {a : PagedArray} {load : Loader} (index : UInt64) : Usable load →
      Reachable Usable config a → Reachable Usable config (a.get load index).2
  | discard {a : PagedArray} : Reachable Usable config a → Reachable Usable config a.discard
  | clearCache {a : PagedArray} :
      Reachable Usable config a → Reachable Usable config a.clearCache
  | drain {a : PagedArray} {load : Loader} : Usable load →
      Reachable Usable config a → Reachable Usable config (a.drain load).2

/-- Only values that were accepted are staged, and pages have what every loaded page has
and a write keeps. -/
theorem Reachable.sound {P : BlobKey → Bytes → Prop}
    (hkeeps : ∀ a : PagedArray, (Slots.blobKind a.width).Keeps a.Accepts P)
    (hreads : ∀ load, Usable load → ∀ width page, (Slots.blobKind width).Reads load P page)
    (h : Reachable Usable config a) : a.overlay.Sound a.Accepts P := by
  induction h with
  | opened hopen =>
    obtain ⟨_, -, rfl⟩ := Except.map_eq_ok.mp hopen
    exact .empty
  | @set a index value _ ih =>
    by_cases hlength : value.length = a.width
    · rw [a.set_of_length_eq index hlength]
      exact ih.stage ⟨hlength, index, rfl⟩
    · rwa [a.set_of_length_ne index hlength]
  | @get a load index hload _ ih =>
    rcases a.get_snd load index with heq | heq
    · rwa [heq]
    · rw [heq]
      exact ih.fetch (hreads load hload _ _)
  | discard _ ih => exact ih.discard
  | clearCache _ ih => exact ih.clearCache
  | drain hload _ ih => exact ih.drain (hkeeps _) fun _ => hreads _ hload _ _

theorem keeps_length (a : PagedArray) (p : Nat → Prop) :
    (Slots.blobKind a.width).Keeps a.Accepts fun _ page => p page.length := by
  intro page base changes content blob hbase _ hmerge
  obtain ⟨hpatch, -⟩ := Slots.merge_eq_ok.mp hmerge
  rwa [Slots.length_of_patch hpatch]

end PagedArray

end ShardedRecords
