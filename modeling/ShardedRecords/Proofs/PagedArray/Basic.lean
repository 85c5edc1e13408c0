import ShardedRecords.PagedArray.Basic
import ShardedRecords.Proofs.Overlay.Coherence
import ShardedRecords.Proofs.Routing.BlobKey
import ShardedRecords.Proofs.Slots.Order

/-!
# Operations of paged arrays

No two indices share a slot. What is written to one is checked for its length
only, and what is read of one is its slot of the page that its changes go on top of.
-/
namespace ShardedRecords

namespace Slots

theorem merge_eq_ok {width : Nat} {key : BlobKey} {page page' blob : Bytes}
    {changes : Std.ExtTreeMap Nat Bytes} :
    (blobKind width).merge key page changes = .ok (page', blob) ↔
      patch page width changes.toList = .ok page' ∧ blob = page' := by
  rw [blobKind, Except.map_eq_ok]
  constructor
  · rintro ⟨out, hpatch, h⟩
    cases h
    exact ⟨Except.mapError_eq_ok.mp hpatch, rfl⟩
  · rintro ⟨hpatch, rfl⟩
    exact ⟨_, Except.mapError_eq_ok.mpr hpatch, rfl⟩

theorem faithful_blobKind (width : Nat) : (blobKind width).Faithful := by
  intro key page changes page' blob h
  rw [(merge_eq_ok.mp h).2]
  rfl

section Union

variable {width : Nat} {page mid : Bytes} {first second : Std.ExtTreeMap Nat Bytes}

theorem coalesced_union (first second : Std.ExtTreeMap Nat Bytes) :
    Coalesced (first.toList ++ second.toList) (first ∪ second).toList := by
  constructor
  · exact Std.ExtTreeMap.ordered_keys_toList.imp fun hlt => Nat.compare_eq_lt.mp hlt
  · rintro ⟨slot, value⟩
    rw [← lookup_reverse_eq_some_iff, List.reverse_append, List.lookup_append,
      lookup_reverse_toList, lookup_reverse_toList,
      Std.ExtTreeMap.mem_toList_iff_getElem?_eq_some, Std.ExtTreeMap.getElem?_union]

/-- Two rounds of writing are one with the later changes in place of the earlier ones. -/
theorem patch_union (h : patch page width first.toList = .ok mid) (out : Bytes) :
    patch mid width second.toList = .ok out ↔
      patch page width (first ∪ second).toList = .ok out := by
  have hunion := coalesced_union first second
  have happend : patch page width (first.toList ++ second.toList) =
      patch mid width second.toList := by
    rw [patch_append, h]
    rfl
  rw [← happend]
  constructor
  · exact hunion.patch_eq_ok
  · intro hout
    -- What is replaced was valid in the first round, and the rest is in the union.
    have hvalid : ∀ a ∈ first.toList ++ second.toList, ∃ i, check width page.length a = .ok i := by
      rintro ⟨slot, value⟩ ha
      rcases List.mem_append.mp ha with ha | ha
      · exact exists_patch_iff.mp ⟨mid, h⟩ _ ha
      · apply exists_patch_iff.mp ⟨out, hout⟩
        rw [Std.ExtTreeMap.mem_toList_iff_getElem?_eq_some] at ha ⊢
        rw [Std.ExtTreeMap.getElem?_union, ha, Option.some_or]
    obtain ⟨out', hout'⟩ := exists_patch_iff.mpr hvalid
    have hsame := hunion.patch_eq_ok hout'
    rw [hout] at hsame
    cases hsame
    exact hout'

end Union

theorem composes_blobKind (width : Nat) : (blobKind width).Composes := by
  rintro key page first mid blob h second ⟨page', blob'⟩
  obtain ⟨hpatch, -⟩ := merge_eq_ok.mp h
  simp only [merge_eq_ok, patch_union hpatch]

end Slots

namespace PagedArray

theorem locate_injective (a : PagedArray) : Function.Injective a.locate := by
  intro i j h
  obtain ⟨hpage, hslot⟩ := Prod.mk.inj h
  have hdiv := congrArg UInt64.toNat (BlobKey.pack_injective hpage)
  rw [UInt64.toNat_div, UInt64.toNat_div] at hdiv
  rw [UInt64.toNat_mod, UInt64.toNat_mod] at hslot
  apply UInt64.toNat_inj.mp
  rw [← Nat.div_add_mod i.toNat a.pageSize.toNat, hdiv, hslot, Nat.div_add_mod]

/-- What is accepted for writing: a value as long as a slot, in the slot of an index. -/
def Accepts (a : PagedArray) (page : BlobKey) (slot : Nat) (value : Bytes) : Prop :=
  value.length = a.width ∧ ∃ index, a.locate index = (page, slot)

theorem set_of_length_eq (a : PagedArray) (index : UInt64) {value : Bytes}
    (h : value.length = a.width) : a.set index value = (.ok (), { a with
      overlay := a.overlay.stage (a.locate index).1 (a.locate index).2 value }) :=
  if_pos h

theorem set_of_length_ne (a : PagedArray) (index : UInt64) {value : Bytes}
    (h : value.length ≠ a.width) : a.set index value =
      (.error (.slots (.wrongLength (a.locate index).2 value.length a.width)), a) :=
  if_neg h

theorem get_eq (load : Loader) (a : PagedArray) (index : UInt64) : a.get load index =
    match a.overlay.change? (a.locate index).1 (a.locate index).2 with
    | some value => (.ok (some value), a)
    | none =>
      let fetched := a.overlay.fetch (Slots.blobKind a.width) load (a.locate index).1
      (fetched.1.map fun page => Slots.get? page (a.locate index).2 a.width,
        { a with overlay := fetched.2 }) := rfl

theorem get_snd (load : Loader) (a : PagedArray) (index : UInt64) :
    (a.get load index).2 = a ∨ (a.get load index).2 = { a with
      overlay := (a.overlay.fetch (Slots.blobKind a.width) load (a.locate index).1).2 } := by
  rw [get_eq]
  cases a.overlay.change? (a.locate index).1 (a.locate index).2 with
  | some value => exact .inl rfl
  | none => exact .inr rfl

/-- An index without a pending value is looked up in what its page is based on. -/
theorem get_fst (load : Loader) (a : PagedArray) (index : UInt64) : (a.get load index).1 =
    match a.overlay.change? (a.locate index).1 (a.locate index).2 with
    | some value => .ok (some value)
    | none => (a.overlay.base (Slots.blobKind a.width) load (a.locate index).1).map
        fun page => Slots.get? page (a.locate index).2 a.width := by
  rw [get_eq]
  cases a.overlay.change? (a.locate index).1 (a.locate index).2 with
  | some value => rfl
  | none => exact congrArg (Except.map _) (Overlay.fetch_fst ..)

/-- A drain hands out the merged blobs, or fails and changes nothing. -/
theorem drain_cases (load : Loader) (a : PagedArray) :
    (∃ blobs o, a.overlay.drain (Slots.blobKind a.width) load = (.ok blobs, o) ∧
      a.drain load = (.ok blobs, { a with overlay := o })) ∨
    ∃ fault, a.overlay.drain (Slots.blobKind a.width) load = (.error fault, a.overlay) ∧
      a.drain load = (.error fault, a) := by
  rcases hd : a.overlay.drain (Slots.blobKind a.width) load with ⟨fault | blobs, o⟩
  · obtain rfl := Overlay.eq_of_drain_error hd
    refine .inr ⟨fault, rfl, ?_⟩
    rw [drain, hd]
  · refine .inl ⟨blobs, o, rfl, ?_⟩
    rw [drain, hd]

end PagedArray

end ShardedRecords
