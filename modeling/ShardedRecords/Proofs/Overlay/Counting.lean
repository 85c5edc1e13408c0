import Mathlib.Data.Finset.Card
import Mathlib.Data.List.Nodup
import ShardedRecords.Proofs.Overlay.Drain
import ShardedRecords.Proofs.Overlay.Staging

/-!
# How much is staged

An overlay counts blobs and changes from what it has staged. If every place has one name, at
most, then these are the numbers of different names that were written and of the blobs that
they belong to, however often each of them was written.
-/
namespace ShardedRecords.Overlay

variable {ι κ δ γ : Type} [Ord κ] [Std.TransOrd κ]
variable {Allowed : BlobKey → κ → δ → Prop} {locate : ι → BlobKey × κ} {names : List ι}
variable {kind : BlobKind κ δ γ} {load : Loader} {o : Overlay κ δ γ}

/-! ## Places -/

/-- The places that have a staged change. -/
def places (o : Overlay κ δ γ) : List (BlobKey × κ) :=
  o.staged.toList.flatMap fun entry => entry.2.keys.map (entry.1, ·)

theorem mem_places_iff [Std.LawfulEqOrd κ] {key : BlobKey} {place : κ} :
    (key, place) ∈ o.places ↔ (o.change? key place).isSome = true := by
  simp only [places, List.mem_flatMap, List.mem_map, Prod.exists, Prod.mk.injEq,
    Std.ExtTreeMap.mem_toList_iff_getElem?_eq_some, Std.ExtTreeMap.mem_keys]
  constructor
  · rintro ⟨key', changes, hs, place', hplace, rfl, rfl⟩
    obtain ⟨c, hc⟩ := Option.isSome_iff_exists.mp
      (Std.ExtTreeMap.mem_iff_isSome_getElem?.mp hplace)
    exact Option.isSome_iff_exists.mpr ⟨c, Option.bind_eq_some_iff.mpr ⟨changes, hs, hc⟩⟩
  · intro h
    obtain ⟨c, hc⟩ := Option.isSome_iff_exists.mp h
    obtain ⟨changes, hs, hplace⟩ := Option.bind_eq_some_iff.mp hc
    have hmem : place ∈ changes := by
      rw [Std.ExtTreeMap.mem_iff_isSome_getElem?, hplace]
      rfl
    exact ⟨key, changes, hs, place, hmem, rfl, rfl⟩

theorem nodup_places [Std.LawfulEqOrd κ] (o : Overlay κ δ γ) : o.places.Nodup := by
  refine List.nodup_flatMap.mpr ⟨?_, ?_⟩
  · intro entry _
    exact Std.ExtTreeMap.nodup_keys.map fun place place' h => (Prod.mk.inj h).2
  · refine Std.ExtTreeMap.distinct_keys_toList.imp ?_
    intro entry entry' hne p hp hp'
    obtain ⟨place, -, rfl⟩ := List.mem_map.mp hp
    obtain ⟨place', -, h⟩ := List.mem_map.mp hp'
    rw [(Prod.mk.inj h).1] at hne
    exact hne Std.ReflCmp.compare_self

theorem foldl_add_size (entries : List (BlobKey × Std.ExtTreeMap κ δ)) (n : Nat) :
    entries.foldl (fun n entry => n + entry.2.size) n =
      n + (entries.flatMap fun entry => entry.2.keys.map (entry.1, ·)).length := by
  induction entries generalizing n with
  | nil => simp
  | cons entry entries ih =>
    rw [List.foldl_cons, ih, List.flatMap_cons, List.length_append, List.length_map,
      Std.ExtTreeMap.length_keys, Nat.add_assoc]

theorem stagedChanges_eq_length (o : Overlay κ δ γ) : o.stagedChanges = o.places.length := by
  rw [stagedChanges, Std.ExtTreeMap.foldl_eq_foldl_toList, foldl_add_size, Nat.zero_add, places]

/-! ## Names -/

/-- There is a change where one of these names is located, and nowhere else. -/
def Files (locate : ι → BlobKey × κ) (names : List ι) (o : Overlay κ δ γ) : Prop :=
  ∀ key place, (o.change? key place).isSome = true ↔ ∃ i ∈ names, locate i = (key, place)

namespace Files

theorem of_staged_eq_empty (h : o.staged = ∅) : o.Files locate [] := by
  intro key place
  simp [change?, h]

theorem of_staged_eq {o' : Overlay κ δ γ} (h : o.Files locate names)
    (hstaged : o'.staged = o.staged) : o'.Files locate names := by
  intro key place
  rw [change?, hstaged]
  exact h key place

theorem stage [DecidableEq κ] [Std.LawfulEqOrd κ] (h : o.Files locate names) (i : ι) (c : δ) :
    (o.stage (locate i).1 (locate i).2 c).Files locate (names ++ [i]) := by
  intro key place
  have hplace : (locate i).1 = key ∧ (locate i).2 = place ↔ locate i = (key, place) := by
    rw [Prod.ext_iff]
  rw [change?_stage]
  by_cases heq : locate i = (key, place)
  · rw [if_pos (hplace.mpr heq)]
    exact iff_of_true rfl ⟨i, by simp, heq⟩
  · rw [if_neg (mt hplace.mp heq), h key place]
    simp [or_and_right, exists_or, heq]

theorem of_drain_ok [Std.LawfulEqOrd κ] {blobs : List (BlobKey × Bytes)}
    (h : (o.drain kind load).1 = .ok blobs) : (o.drain kind load).2.Files locate [] :=
  of_staged_eq_empty (drained_of_drain (Prod.ext h rfl) ∅).staged

theorem of_drain_error (hfiles : o.Files locate names) {fault : Fault}
    (h : (o.drain kind load).1 = .error fault) : (o.drain kind load).2.Files locate names := by
  have heq : (o.drain kind load).2 = o := eq_of_drain_error (Prod.ext h rfl)
  rwa [heq]

theorem mem_places_iff [Std.LawfulEqOrd κ] (h : o.Files locate names) {p : BlobKey × κ} :
    p ∈ o.places ↔ ∃ i ∈ names, locate i = p :=
  Overlay.mem_places_iff.trans (h p.1 p.2)

theorem stagedChanges_eq [Std.LawfulEqOrd κ] [DecidableEq ι] (h : o.Files locate names)
    (hlocate : Function.Injective locate) : o.stagedChanges = names.toFinset.card := by
  classical
  have hplaces : o.places.toFinset = names.toFinset.image locate := by
    ext p
    simp only [List.mem_toFinset, Finset.mem_image, h.mem_places_iff]
  rw [stagedChanges_eq_length, ← List.toFinset_card_of_nodup o.nodup_places, hplaces,
    Finset.card_image_of_injective _ hlocate]

/-- Every staged blob has a change, so it is the blob of a name. -/
theorem stagedBlobs_eq [DecidableEq ι] (h : o.Files locate names) (htidy : o.Tidy Allowed) :
    o.stagedBlobs = (names.toFinset.image fun i => (locate i).1).card := by
  have hkeys : o.staged.keys.toFinset = names.toFinset.image fun i => (locate i).1 := by
    ext key
    simp only [List.mem_toFinset, Finset.mem_image, Std.ExtTreeMap.mem_keys]
    constructor
    · intro hkey
      obtain ⟨changes, hs⟩ := Option.isSome_iff_exists.mp
        (Std.ExtTreeMap.mem_iff_isSome_getElem?.mp hkey)
      obtain ⟨place, c, hc⟩ := htidy.nonempty key changes hs
      have hchange : (o.change? key place).isSome = true := by simp [change?, hs, hc]
      obtain ⟨i, hi, hlocate⟩ := (h key place).mp hchange
      exact ⟨i, hi, congrArg Prod.fst hlocate⟩
    · rintro ⟨i, hi, rfl⟩
      obtain ⟨c, hc⟩ := Option.isSome_iff_exists.mp ((h _ _).mpr ⟨i, hi, rfl⟩)
      obtain ⟨changes, hs, -⟩ := Option.bind_eq_some_iff.mp hc
      rw [Std.ExtTreeMap.mem_iff_isSome_getElem?, hs]
      rfl
  rw [stagedBlobs, ← Std.ExtTreeMap.length_keys,
    ← List.toFinset_card_of_nodup Std.ExtTreeMap.nodup_keys, hkeys]

end Files

/-- Blobs are staged for their changes only. -/
theorem Tidy.isEmpty_iff [Std.LawfulEqOrd κ] (h : o.Tidy Allowed) :
    o.isEmpty = true ↔ o.stagedChanges = 0 := by
  rw [stagedChanges_eq_length, List.length_eq_zero_iff, List.eq_nil_iff_forall_not_mem, isEmpty,
    Std.ExtTreeMap.isEmpty_iff]
  constructor
  · rintro hempty ⟨key, place⟩
    simp [mem_places_iff, change?, hempty]
  · intro hnone
    ext1 key
    rw [Std.ExtTreeMap.getElem?_empty]
    cases hs : o.staged[key]? with
    | none => rfl
    | some changes =>
      obtain ⟨place, c, hc⟩ := h.nonempty key changes hs
      exact absurd (mem_places_iff.mpr (by simp [change?, hs, hc])) (hnone (key, place))

theorem Tidy.size_pos (h : o.Tidy Allowed) {key : BlobKey} {changes : Std.ExtTreeMap κ δ}
    (hs : o.staged[key]? = some changes) : 0 < changes.size := by
  obtain ⟨place, c, hc⟩ := h.nonempty key changes hs
  apply Nat.pos_of_ne_zero
  intro hzero
  rw [Std.ExtTreeMap.eq_empty_iff_size_eq_zero.mpr hzero, Std.ExtTreeMap.getElem?_empty] at hc
  cases hc

/-- What an overlay has staged, by the names of the places that were written. -/
structure Counts [DecidableEq ι] (locate : ι → BlobKey × κ) (names : List ι)
    (o : Overlay κ δ γ) : Prop where
  nonempty : ∀ (key : BlobKey) changes, o.staged[key]? = some changes → 0 < changes.size
  changes : o.stagedChanges = names.toFinset.card
  blobs : o.stagedBlobs = (names.toFinset.image fun i => (locate i).1).card
  isEmpty : o.isEmpty = true ↔ o.stagedChanges = 0

theorem Files.counts [Std.LawfulEqOrd κ] [DecidableEq ι] (h : o.Files locate names)
    (htidy : o.Tidy Allowed) (hlocate : Function.Injective locate) : o.Counts locate names where
  nonempty _ _ := htidy.size_pos
  changes := h.stagedChanges_eq hlocate
  blobs := h.stagedBlobs_eq htidy
  isEmpty := htidy.isEmpty_iff

end ShardedRecords.Overlay
