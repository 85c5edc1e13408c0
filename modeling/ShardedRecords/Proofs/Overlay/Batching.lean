import Mathlib.Data.List.Induction
import ShardedRecords.Proofs.LastByKey
import ShardedRecords.Proofs.Overlay.Coherence
import ShardedRecords.Proofs.Overlay.Staging

/-!
# Drains in between

Staged changes can be drained now and then, or all at once in the end. Where merging
twice is merging once with the later changes on top, the store becomes the same: what
was merged and what is staged make up all the changes at any time.
-/
namespace ShardedRecords

variable {ι κ δ γ : Type} [Ord κ] [Std.TransOrd κ]

namespace Overlay

/-! ## All writes staged -/

/-- The writes, each staged at its place. -/
def stageAll (locate : ι → BlobKey × κ) (writes : List (ι × δ)) : Overlay κ δ γ :=
  writes.foldl (fun o w => o.stage (locate w.1).1 (locate w.1).2 w.2) empty

variable {locate : ι → BlobKey × κ} {writes writes' : List (ι × δ)}

theorem stageAll_concat (writes : List (ι × δ)) (w : ι × δ) :
    (stageAll locate (writes ++ [w]) : Overlay κ δ γ) =
      (stageAll locate writes).stage (locate w.1).1 (locate w.1).2 w.2 := by
  simp [stageAll]

section

variable [Std.LawfulEqOrd κ]

theorem tidy_stageAll (locate : ι → BlobKey × κ) (writes : List (ι × δ)) :
    (stageAll locate writes : Overlay κ δ γ).Tidy fun key place _ =>
      ∃ i, locate i = (key, place) := by
  induction writes using List.reverseRecOn with
  | nil => exact tidy_of_staged_eq_empty rfl
  | append_singleton writes w ih =>
    rw [stageAll_concat]
    exact ih.stage ⟨w.1, rfl⟩

variable [DecidableEq κ] [BEq ι] [LawfulBEq ι]

theorem change?_stageAll (hlocate : Function.Injective locate) (writes : List (ι × δ)) (i : ι) :
    (stageAll locate writes : Overlay κ δ γ).change? (locate i).1 (locate i).2 =
      writes.reverse.lookup i := by
  induction writes using List.reverseRecOn with
  | nil => exact change?_empty _ _
  | append_singleton writes w ih =>
    obtain ⟨j, c⟩ := w
    have hplace : (locate j).1 = (locate i).1 ∧ (locate j).2 = (locate i).2 ↔ j = i := by
      rw [← Prod.ext_iff, hlocate.eq_iff]
    simp only [stageAll_concat, change?_stage, ih, List.reverse_append, List.reverse_singleton,
      List.singleton_append, List.lookup_cons]
    by_cases h : j = i
    · simp [h]
    · have hne : (i == j) = false := by simpa using Ne.symm h
      rw [if_neg (mt hplace.mp h), hne]

theorem change?_stageAll_eq_some_iff (hlocate : Function.Injective locate) {key : BlobKey}
    {place : κ} {c : δ} :
    (stageAll locate writes : Overlay κ δ γ).change? key place = some c ↔
      ∃ i, locate i = (key, place) ∧ writes.reverse.lookup i = some c := by
  constructor
  · intro hc
    obtain ⟨i, hi⟩ := (tidy_stageAll locate writes).allowed_of_change? hc
    refine ⟨i, hi, ?_⟩
    rw [← change?_stageAll (γ := γ) hlocate, hi]
    exact hc
  · rintro ⟨i, hi, hc⟩
    rw [← hc, ← change?_stageAll hlocate, hi]

/-- Nothing but the last write to each place counts. -/
theorem staged_stageAll_congr (hlocate : Function.Injective locate)
    (h : ∀ i, writes.reverse.lookup i = writes'.reverse.lookup i) :
    (stageAll locate writes : Overlay κ δ γ).staged =
      (stageAll locate writes' : Overlay κ δ γ).staged := by
  apply (tidy_stageAll locate writes).staged_eq (tidy_stageAll locate writes')
  intro key place
  ext c
  simp only [change?_stageAll_eq_some_iff hlocate, h]

end

/-! ## Some writes drained -/

/-- How far all the changes to one blob have got: they are all staged, or some are merged
and those on top of them are staged. -/
inductive Progress (kind : BlobKind κ δ γ) (start : BlobStore) (all o : Overlay κ δ γ)
    (store : BlobStore) (key : BlobKey) : Prop
  | unmerged (hstaged : o.staged[key]? = all.staged[key]?) (hstore : store[key]? = start[key]?)
  | merged {first : Std.ExtTreeMap κ δ} {base content : γ} {blob : Bytes}
      (hstaged : all.staged[key]? = some (first ∪ o.staged[key]?.getD ∅))
      (hread : kind.read start[key]? = .ok base)
      (hmerge : kind.merge key base first = .ok (content, blob)) (hstore : store[key]? = some blob)

/-- Nothing of the changes is lost between what is merged and what is staged. -/
def PartlyDrained (kind : BlobKind κ δ γ) (start : BlobStore) (all o : Overlay κ δ γ)
    (store : BlobStore) : Prop :=
  ∀ key, Progress kind start all o store key

variable {kind : BlobKind κ δ γ} {start store store' : BlobStore} {all o o' : Overlay κ δ γ}
variable {outage : BlobKey → Option String}

theorem PartlyDrained.stage (h : PartlyDrained kind start all o store) (key : BlobKey) (place : κ)
    (c : δ) : PartlyDrained kind start (all.stage key place c) (o.stage key place c) store := by
  intro key'
  by_cases heq : key = key'
  · subst heq
    rcases h key with ⟨hstaged, hstore⟩ | ⟨hstaged, hread, hmerge, hstore⟩
    · refine .unmerged ?_ hstore
      simp [Overlay.stage, hstaged]
    · refine .merged ?_ hread hmerge hstore
      simp only [Overlay.stage, Std.ExtTreeMap.getElem?_insert_self, hstaged, Option.getD_some]
      exact congrArg some (Std.ExtTreeMap.union_insert_right_eq_insert_union (p := ⟨place, c⟩)).symm
  · have hother : ∀ o : Overlay κ δ γ, (o.stage key place c).staged[key']? = o.staged[key']? := by
      intro o
      have hne : ¬compare key key' = .eq := by rwa [Std.compare_eq_iff_eq]
      simp [Overlay.stage, Std.ExtTreeMap.getElem?_insert, hne]
    rcases h key' with ⟨hstaged, hstore⟩ | ⟨hstaged, hread, hmerge, hstore⟩
    · exact .unmerged (by rw [hother, hother, hstaged]) hstore
    · exact .merged (by rw [hother, hother, hstaged]) hread hmerge hstore

/-- Blobs that can be merged with all the changes can be merged with the rest of them. -/
theorem PartlyDrained.exists_drain (h : PartlyDrained kind start all o store)
    (hkind : kind.Faithful) (hcomposes : kind.Composes) (hcoherent : o.Coherent kind store)
    (outage : BlobKey → Option String)
    (hall : ∀ (key : BlobKey) changes, all.staged[key]? = some changes → outage key = none ∧
      ∃ base merged, kind.read start[key]? = .ok base ∧ kind.merge key base changes = .ok merged) :
    ∃ blobs, (o.drain kind (store.loader outage)).1 = .ok blobs := by
  apply exists_drain_eq_ok_iff.mpr
  intro key changes hs
  rcases h key with ⟨hstaged, hstore⟩ | ⟨hstaged, hread, hmerge, hstore⟩
  · obtain ⟨hout, base, ⟨content, blob⟩, hread, hmerge⟩ := hall key changes (hstaged ▸ hs)
    refine ⟨⟨key, content, blob⟩, mergeBlob_eq_ok.mpr ⟨rfl, base, ?_, hmerge⟩⟩
    rw [hcoherent.base_eq_read hout, hstore, hread]
  · obtain ⟨hout, base, ⟨content, blob⟩, hread', hmerge'⟩ := hall key _ hstaged
    cases hread.symm.trans hread'
    rw [hs, Option.getD_some, ← hcomposes hmerge] at hmerge'
    refine ⟨⟨key, content, blob⟩, mergeBlob_eq_ok.mpr ⟨rfl, _, ?_, hmerge'⟩⟩
    rw [hcoherent.base_eq_read hout, hstore, hkind hmerge]

section

variable [Std.LawfulEqOrd κ]

theorem union_empty (changes : Std.ExtTreeMap κ δ) : changes ∪ ∅ = changes := by
  ext1 place
  simp [Std.ExtTreeMap.getElem?_union]

/-- What is drained joins what was merged before. -/
theorem PartlyDrained.drained (h : PartlyDrained kind start all o store) (hkind : kind.Faithful)
    (hcomposes : kind.Composes) (hcoherent : o.Coherent kind store)
    (hd : Drained kind (store.loader outage) o store o' store') :
    PartlyDrained kind start all o' store' := by
  intro key
  have hempty : o'.staged[key]? = none := by simp [hd.staged]
  cases hs : o.staged[key]? with
  | none =>
    have hstore' := (hd.other key hs).2
    rcases h key with ⟨hstaged, hstore⟩ | ⟨hstaged, hread, hmerge, hstore⟩
    · exact .unmerged (by rw [hempty, ← hs, hstaged]) (hstore'.trans hstore)
    · exact .merged (by rw [hempty, ← hs, hstaged]) hread hmerge (hstore'.trans hstore)
  | some changes =>
    obtain ⟨base, content, blob, hbase, hmerge', -, hstore'⟩ := hd.merged key changes hs
    have hread' := hcoherent.read_of_base hbase
    rcases h key with ⟨hstaged, hstore⟩ | ⟨hstaged, hread, hmerge, hstore⟩
    · refine .merged ?_ (hstore ▸ hread') hmerge' hstore'
      rw [hempty, Option.getD_none, union_empty, ← hstaged, hs]
    · -- The blob reads back as what it was made of, so the drain has merged on top of that.
      rw [hstore, hkind hmerge] at hread'
      cases hread'
      refine .merged ?_ hread ((hcomposes hmerge _ _).mp hmerge') hstore'
      rw [hempty, Option.getD_none, union_empty, hstaged, hs, Option.getD_some]

/-- Once nothing is staged any more, all the changes are merged. -/
theorem PartlyDrained.merged (h : PartlyDrained kind start all o store) (hempty : o.staged = ∅) :
    start.Merged kind all.staged store := by
  have hnone : ∀ key : BlobKey, o.staged[key]? = none := by simp [hempty]
  constructor
  · intro key hs
    rcases h key with ⟨-, hstore⟩ | ⟨hstaged, -, -, -⟩
    · exact hstore
    · simp [hs] at hstaged
  · intro key changes hs
    rcases h key with ⟨hstaged, -⟩ | ⟨hstaged, hread, hmerge, hstore⟩
    · simp [hnone, hs] at hstaged
    · rw [hnone, Option.getD_none, union_empty, hs] at hstaged
      cases hstaged
      exact ⟨_, _, _, hread, hmerge, hstore⟩

/-- The store with all the changes merged in one drain. -/
theorem exists_merged (hkind : kind.Faithful) (hcomposes : kind.Composes)
    (hall : ∀ (key : BlobKey) changes, all.staged[key]? = some changes →
      ∃ base merged, kind.read start[key]? = .ok base ∧ kind.merge key base changes = .ok merged) :
    ∃ store, start.Merged kind all.staged store := by
  let o : Overlay κ δ γ := { all with cache := ∅ }
  have hcoherent : o.Coherent kind start := coherent_empty.of_cache_eq rfl
  have hnone : PartlyDrained kind start all o start := fun _ => .unmerged rfl rfl
  obtain ⟨blobs, hblobs⟩ := hnone.exists_drain hkind hcomposes hcoherent (fun _ => none)
    fun key changes hs => ⟨rfl, hall key changes hs⟩
  have hd := drained_of_drain (Prod.ext hblobs rfl) start
  exact ⟨_, (hnone.drained hkind hcomposes hcoherent hd).merged hd.staged⟩

end

end Overlay

end ShardedRecords
