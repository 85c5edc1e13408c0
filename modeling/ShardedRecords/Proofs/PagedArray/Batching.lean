import ShardedRecords.Proofs.PagedArray.FlatArray
import ShardedRecords.Proofs.Session.Batching

/-!
# Batched writes to a paged array

In which order different slots are written, how often, and when some of it is committed,
does not matter to the store: in the end each written slot has its last value, and every
other byte is what it was.
-/
namespace ShardedRecords

/-- The index and the value of an operation that stages one. A value of the wrong length
is not staged. -/
def ArrayOp.write? (width : Nat) : ArrayOp → Option (UInt64 × Bytes)
  | .set index value => if value.length = width then some (index, value) else none
  | _ => none

namespace PagedArray

variable {a : PagedArray} {store store' : BlobStore} {last : Std.ExtTreeMap UInt64 Bytes}

/-- The pages are in memory, and the slots that are written are there, with room for
what is written. -/
structure Takes (a : PagedArray) (store : BlobStore) (last : Std.ExtTreeMap UInt64 Bytes) :
    Prop where
  short : store.Short
  length : ∀ (index : UInt64) value, last[index]? = some value → value.length = a.width
  slot : ∀ index ∈ last, (FlatArray.stored a store).committed index ≠ none

/-- In the new store the written slots have the values, and all else is as in the old. -/
structure Updates (a : PagedArray) (last : Std.ExtTreeMap UInt64 Bytes) (store store' : BlobStore) :
    Prop where
  alike : store.AlikeOutside (fun place => ∃ index ∈ last, a.locate index = place) a.width store'
  slot : ∀ index, (FlatArray.stored a store').committed index =
    last[index]?.or ((FlatArray.stored a store).committed index)

theorem change?_stageAll_iff {page : BlobKey} {slot : Nat} {value : Bytes} :
    (Overlay.stageAll a.locate last.toList : Overlay Nat Bytes Bytes).change? page slot =
      some value ↔ ∃ index, a.locate index = (page, slot) ∧ last[index]? = some value := by
  simp only [Overlay.change?_stageAll_eq_some_iff a.locate_injective, lookup_reverse_toList]

/-- A written slot lies in its page. -/
theorem Takes.exists_check (h : a.Takes store last) {index : UInt64} {value : Bytes}
    (hvalue : last[index]? = some value) :
    ∃ i, Slots.check a.width (store[(a.locate index).1]?.getD []).length
      ((a.locate index).2, value) = .ok i := by
  have hindex : index ∈ last :=
    Std.ExtTreeMap.mem_iff_isSome_getElem?.mpr (Option.isSome_of_eq_some hvalue)
  have hslot := h.slot index hindex
  rw [FlatArray.committed_stored] at hslot
  cases hpage : store[(a.locate index).1]? with
  | none => simp [hpage] at hslot
  | some page =>
    have hlength : page.length < UInt64.size / 2 := h.short _ page hpage
    have hfits : ((a.locate index).2 + 1) * a.width ≤ page.length := by
      simpa [hpage, Bytes.slice?, Nat.add_one_mul] using hslot
    have hvalueLength : value.length = a.width := h.length index value hvalue
    have hwords : page.length < UInt64.size := by omega
    exact (Slots.exists_check_iff hwords).mpr ⟨hvalueLength, hfits⟩

theorem Takes.exists_merge (h : a.Takes store last) {page : BlobKey}
    {changes : Std.ExtTreeMap Nat Bytes}
    (hs : (Overlay.stageAll a.locate last.toList : Overlay Nat Bytes Bytes).staged[page]? =
      some changes) :
    ∃ base merged, (Slots.blobKind a.width).read store[page]? = .ok base ∧
      (Slots.blobKind a.width).merge page base changes = .ok merged := by
  have hchecks : ∀ write ∈ changes.toList, ∃ i,
      Slots.check a.width (store[page]?.getD []).length write = .ok i := by
    rintro ⟨slot, value⟩ hwrite
    have hvalue := Std.ExtTreeMap.mem_toList_iff_getElem?_eq_some.mp hwrite
    have hchange : (Overlay.stageAll a.locate last.toList : Overlay Nat Bytes Bytes).change?
        page slot = some value := by
      simp [Overlay.change?, hs, hvalue]
    obtain ⟨index, hindex, hlast⟩ := change?_stageAll_iff.mp hchange
    have hcheck := h.exists_check hlast
    rwa [hindex] at hcheck
  obtain ⟨page', hpatch⟩ := Slots.exists_patch_iff.mpr hchecks
  exact ⟨_, _, rfl, Slots.merge_eq_ok.mpr ⟨hpatch, rfl⟩⟩

theorem updates_of_merged (hwidth : 0 < a.width) (h : store.Merged (Slots.blobKind a.width)
    (Overlay.stageAll a.locate last.toList : Overlay Nat Bytes Bytes).staged store') :
    a.Updates last store store' := by
  have htidy := Overlay.tidy_stageAll (γ := Bytes) a.locate last.toList
  constructor
  · apply h.alikeOutside hwidth htidy
    intro page slot value hvalue
    obtain ⟨index, hindex, hlast⟩ := change?_stageAll_iff.mp hvalue
    exact ⟨index, Std.ExtTreeMap.mem_iff_isSome_getElem?.mpr (Option.isSome_of_eq_some hlast),
      hindex⟩
  · intro index
    rw [FlatArray.committed_stored, h.slice? hwidth htidy,
      Overlay.change?_stageAll a.locate_injective, lookup_reverse_toList]
    rfl

end PagedArray

namespace ArraySession

variable {array : PagedArray} {config : PagedArray.Config}

theorem stagesIn (hopen : PagedArray.ofConfig config = .ok array) :
    Session.StagesIn step .commit (ArrayOp.write? array.width) (Slots.blobKind array.width)
      array.locate PagedArray.overlay (Consistent array) where
  coherent h := h.width_eq ▸ h.coherent
  write?_commit := rfl
  write outage s op w hw h := by
    cases op with
    | set index value =>
      obtain ⟨hlength, heq⟩ := Option.ite_none_right_eq_some.mp hw
      cases heq
      rw [← h.width_eq] at hlength
      have hset := s.front.set_of_length_eq index hlength
      refine ⟨(h.step hopen outage (.set index value) s trivial).1, rfl, ?_⟩
      simp only [step, Session.answer, hset, h.locate_eq]
    | _ => cases hw
  commit outage s h := by
    refine ⟨(h.step hopen outage .commit s trivial).1, ?_⟩
    rw [← h.width_eq]
    rcases commit_cases s outage with ⟨blobs, o, hd, hstep⟩ | ⟨fault, hd, hstep⟩
    · rw [hd, hstep]
      exact .inl ⟨blobs, o, rfl, rfl, rfl, rfl⟩
    · rw [hstep]
      exact .inr ⟨fault, hd, rfl⟩

/-- After whatever writes and commits, the last commit updates the pages with the last
value of each index. -/
theorem exists_commitsTo (hopen : PagedArray.ofConfig config = .ok array) {store : BlobStore}
    {last : Std.ExtTreeMap UInt64 Bytes} (h : array.Takes store last) :
    ∃ store', array.Updates last store store' ∧
      Session.CommitsTo step .commit (ArrayOp.write? array.width) ⟨array, store⟩ last store' := by
  have hempty : array.overlay.staged = ∅ := by
    obtain ⟨_, -, rfl⟩ := Except.map_eq_ok.mp hopen
    rfl
  have hstart := (consistent_of_ofConfig hopen h.short).1
  obtain ⟨store', hmerged, hcommits⟩ := (stagesIn hopen).exists_commitsTo
    (Slots.faithful_blobKind _) (Slots.composes_blobKind _) array.locate_injective
    hstart hempty rfl fun _ _ => h.exists_merge
  exact ⟨store', PagedArray.updates_of_merged hstart.width_pos hmerged, hcommits⟩

end ArraySession

end ShardedRecords
