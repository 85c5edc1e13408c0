import ShardedRecords.Proofs.Overlay.Coherence
import ShardedRecords.Proofs.Overlay.Staging

/-!
# What is staged and cached at any time

A cache is filled with contents that were read or merged. What holds of the contents of
every blob that is loaded, and is kept by merging changes that may be staged, holds of
everything that is cached, whatever stores there were and whichever of them failed.
-/
namespace ShardedRecords

variable {κ δ γ : Type} [Ord κ]

/-- Merging changes that may be staged keeps a property of the contents. -/
def BlobKind.Keeps (kind : BlobKind κ δ γ) [Std.TransOrd κ] (Allowed : BlobKey → κ → δ → Prop)
    (P : BlobKey → γ → Prop) : Prop :=
  ∀ {key : BlobKey} {base changes content blob}, P key base →
    (∀ (place : κ) c, changes[place]? = some c → Allowed key place c) →
    kind.merge key base changes = .ok (content, blob) → P key content

/-- What can be read under a key has a property. -/
def BlobKind.Reads (kind : BlobKind κ δ γ) (load : Loader) (P : BlobKey → γ → Prop)
    (key : BlobKey) : Prop :=
  ∀ {blob content}, load key = .ok blob → kind.read blob = .ok content → P key content

namespace Overlay

variable [Std.TransOrd κ] {kind : BlobKind κ δ γ} {load : Loader} {key : BlobKey}
variable {Allowed : BlobKey → κ → δ → Prop} {P : BlobKey → γ → Prop} {o : Overlay κ δ γ}

/-- Every staged change may be staged, and everything cached has a property. -/
structure Sound (Allowed : BlobKey → κ → δ → Prop) (P : BlobKey → γ → Prop)
    (o : Overlay κ δ γ) : Prop where
  tidy : o.Tidy Allowed
  cached : ∀ (key : BlobKey) content, o.cache[key]? = some content → P key content

namespace Sound

theorem empty : (Overlay.empty : Overlay κ δ γ).Sound Allowed P := by
  constructor
  · exact tidy_of_staged_eq_empty rfl
  · intro key content h
    simp [Overlay.empty] at h

theorem stage [Std.LawfulEqOrd κ] (h : o.Sound Allowed P) {place : κ} {c : δ}
    (hc : Allowed key place c) : (o.stage key place c).Sound Allowed P :=
  ⟨h.tidy.stage hc, h.cached⟩

theorem discard (h : o.Sound Allowed P) : o.discard.Sound Allowed P :=
  ⟨tidy_of_staged_eq_empty rfl, h.cached⟩

theorem clearCache (h : o.Sound Allowed P) : o.clearCache.Sound Allowed P := by
  refine ⟨h.tidy.of_staged_eq rfl, fun key content hkey => ?_⟩
  simp [Overlay.clearCache] at hkey

theorem of_base (h : o.Sound Allowed P) (hload : kind.Reads load P key) {content : γ}
    (hbase : o.base kind load key = .ok content) : P key content := by
  rcases base_eq_ok.mp hbase with hcache | ⟨-, blob, hblob, hread⟩
  · exact h.cached key content hcache
  · exact hload hblob hread

theorem fetch (h : o.Sound Allowed P) (hload : kind.Reads load P key) :
    (o.fetch kind load key).2.Sound Allowed P := by
  refine ⟨h.tidy.of_staged_eq (staged_fetch ..), ?_⟩
  unfold Overlay.fetch
  cases hbase : o.base kind load key with
  | error fault => exact h.cached
  | ok content =>
    intro key' content' hkey
    simp only [Std.ExtTreeMap.getElem?_insert, Std.compare_eq_iff_eq] at hkey
    split at hkey
    · subst key'
      cases hkey
      exact h.of_base hload hbase
    · exact h.cached key' content' hkey

/-- Contents that staged changes are merged into have the property before and after. -/
theorem of_merge (h : o.Sound Allowed P) (hkeeps : kind.Keeps Allowed P)
    (hload : kind.Reads load P key) {changes : Std.ExtTreeMap κ δ} {base content : γ} {blob : Bytes}
    (hstaged : o.staged[key]? = some changes) (hbase : o.base kind load key = .ok base)
    (hmerge : kind.merge key base changes = .ok (content, blob)) : P key content :=
  hkeeps (h.of_base hload hbase) (h.tidy.allowed key changes hstaged) hmerge

/-- Only blobs with staged changes are loaded by a drain. -/
theorem drain (h : o.Sound Allowed P) (hkeeps : kind.Keeps Allowed P)
    (hload : ∀ {key place c}, Allowed key place c → kind.Reads load P key) :
    (o.drain kind load).2.Sound Allowed P := by
  rcases hdrain : o.drain kind load with ⟨fault | blobs, o'⟩
  · rwa [eq_of_drain_error hdrain]
  · have hd := drained_of_drain hdrain ∅
    refine ⟨tidy_of_staged_eq_empty hd.staged, fun key content hkey => ?_⟩
    simp only at hkey
    cases hs : o.staged[key]? with
    | none =>
      rw [(hd.other key hs).1] at hkey
      exact h.cached key content hkey
    | some changes =>
      obtain ⟨base, merged, blob, hbase, hmerge, hcache, -⟩ := hd.merged key changes hs
      obtain ⟨place, c, hplace⟩ := h.tidy.nonempty key changes hs
      rw [hcache] at hkey
      cases hkey
      exact h.of_merge hkeeps (hload (h.tidy.allowed key changes hs place c hplace)) hs hbase hmerge

end Sound

end Overlay

end ShardedRecords
