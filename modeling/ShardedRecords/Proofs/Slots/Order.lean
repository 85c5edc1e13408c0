import ShardedRecords.Proofs.LastByKey
import ShardedRecords.Proofs.Slots.Patches

/-!
# In which order slots are assigned

Patches can be put together and cut apart. Only assignments to the same slot depend on their
order, and of these only the last one matters, so that it is enough to write for each slot
what is assigned to it last, in ascending order of the slots.
-/
namespace ShardedRecords.Slots

variable {blob out out' : Bytes} {width : Nat} {a : Assignment} {as bs cs : List Assignment}

theorem patch_append (blob : Bytes) (width : Nat) (as bs : List Assignment) :
    patch blob width (as ++ bs) = patch blob width as >>= fun mid => patch mid width bs :=
  List.foldlM_append

/-! ## Last assignments -/

theorem IsLast.mem (h : IsLast as a) : a ∈ as := by
  obtain ⟨before, after, rfl, -⟩ := h
  simp

/-- The last assignments are all that the written blob depends on. -/
theorem eq_of_patch_of_isLast_iff (h : patch blob width as = .ok out)
    (h' : patch blob width bs = .ok out') (hlast : ∀ a, IsLast as a ↔ IsLast bs a) :
    out = out' := by
  rcases Nat.eq_zero_or_pos width with rfl | hwidth
  · rw [eq_of_patch_zero h, eq_of_patch_zero h']
  · have hlookup : ∀ slot, as.reverse.lookup slot = bs.reverse.lookup slot := by
      intro slot
      apply Option.ext
      intro value
      rw [lookup_reverse_eq_some_iff, lookup_reverse_eq_some_iff, hlast]
    apply List.ext_getElem?
    intro p
    rw [getElem?_of_patch hwidth h, getElem?_of_patch hwidth h', hlookup]

/-- Assignments can be left out and moved as long as the same ones are the last of their slots. -/
theorem patch_eq_ok_of_subset (h : patch blob width as = .ok out) (hsubset : bs ⊆ as)
    (hlast : ∀ a, IsLast as a ↔ IsLast bs a) : patch blob width bs = .ok out := by
  have hvalid := exists_patch_iff.mp ⟨out, h⟩
  obtain ⟨out', h'⟩ := exists_patch_iff.mpr fun a ha => hvalid a (hsubset ha)
  rw [h', eq_of_patch_of_isLast_iff h h' hlast]

/-- Of assignments to different slots each is the last one. -/
theorem isLast_iff_mem (hslots : (as.map Prod.fst).Nodup) : IsLast as a ↔ a ∈ as := by
  constructor
  · exact IsLast.mem
  · intro ha
    obtain ⟨before, after, rfl⟩ := List.append_of_mem ha
    rw [List.map_append, List.map_cons, List.nodup_append] at hslots
    obtain ⟨-, hafter, -⟩ := hslots
    rw [List.nodup_cons] at hafter
    have hne : ∀ a' ∈ after, a'.1 ≠ a.1 := by
      intro a' ha' heq
      exact hafter.1 (heq ▸ List.mem_map_of_mem ha')
    exact ⟨before, after, rfl, hne⟩

theorem patch_eq_ok_iff_of_perm (hperm : as.Perm bs) (hslots : (as.map Prod.fst).Nodup) :
    patch blob width as = .ok out ↔ patch blob width bs = .ok out := by
  have hslots' : (bs.map Prod.fst).Nodup := (hperm.map Prod.fst).nodup_iff.mp hslots
  have hlast : ∀ a, IsLast as a ↔ IsLast bs a := by
    intro a
    rw [isLast_iff_mem hslots, isLast_iff_mem hslots', hperm.mem_iff]
  constructor
  · intro h
    exact patch_eq_ok_of_subset h hperm.symm.subset hlast
  · intro h
    exact patch_eq_ok_of_subset h hperm.subset fun a => (hlast a).symm

/-! ## One assignment for each slot -/

/-- The last assignment to each slot, in ascending order of the slots. -/
structure Coalesced (as cs : List Assignment) : Prop where
  ascending : cs.Pairwise fun a a' => a.1 < a'.1
  mem_iff : ∀ a, a ∈ cs ↔ IsLast as a

theorem coalesced_lastByKey (as : List Assignment) : Coalesced as (lastByKey as) := by
  constructor
  · exact (pairwise_lastByKey as).imp fun hlt => Nat.compare_eq_lt.mp hlt
  · rintro ⟨slot, value⟩
    rw [lastByKey, Std.ExtTreeMap.mem_toList_iff_getElem?_eq_some, getElem?_lastByKeyMap,
      lookup_reverse_eq_some_iff]

theorem Coalesced.patch_eq_ok (hcoalesced : Coalesced as cs)
    (h : patch blob width as = .ok out) : patch blob width cs = .ok out := by
  have hslots : (cs.map Prod.fst).Nodup :=
    List.pairwise_map.mpr (hcoalesced.ascending.imp fun hlt => Nat.ne_of_lt hlt)
  apply patch_eq_ok_of_subset h
  · intro a ha
    exact ((hcoalesced.mem_iff a).mp ha).mem
  · intro a
    rw [isLast_iff_mem hslots, hcoalesced.mem_iff]

theorem get?_of_patch (hlen : blob.length < UInt64.size) (h : patch blob width as = .ok out)
    (slot : Nat) : get? out slot width =
      (as.reverse.lookup slot).or (get? blob slot width) := by
  have hlen' : out.length < UInt64.size := length_of_patch h ▸ hlen
  rw [get?_eq_slice? hlen', slice?_of_patch h, get?_eq_slice? hlen]

/-- A patch with one list after the other is two patches, and different slots can be assigned
in any order. Valid assignments are written as well if only the last one of each slot is,
and every slot then has the bytes of its last assignment, or those that it had. -/
theorem patch_determined_by_last_assignments (hlen : blob.length < UInt64.size) (width : Nat) :
    (∀ as bs, patch blob width (as ++ bs) =
      patch blob width as >>= fun mid => patch mid width bs) ∧
    (∀ as bs, as.Perm bs → (as.map Prod.fst).Nodup →
      ∀ out, patch blob width as = .ok out ↔ patch blob width bs = .ok out) ∧
    ∀ as, (∀ a ∈ as, Valid width blob.length a) → Coalesced as (lastByKey as) ∧
      ∃ out, patch blob width as = .ok out ∧
        (∀ cs, Coalesced as cs → patch blob width cs = .ok out) ∧
        (∀ a, IsLast as a → get? out a.1 width = some a.2) ∧
        ∀ slot, (∀ a ∈ as, a.1 ≠ slot) → get? out slot width = get? blob slot width := by
  constructor
  · exact patch_append blob width
  constructor
  · intro as bs hperm hslots out
    exact patch_eq_ok_iff_of_perm hperm hslots
  · intro as hvalid
    obtain ⟨out, h⟩ := (exists_patch_iff_valid hlen).mpr hvalid
    refine ⟨coalesced_lastByKey as, out, h, fun cs hcoalesced => hcoalesced.patch_eq_ok h, ?_, ?_⟩
    · intro a ha
      rw [get?_of_patch hlen h, lookup_reverse_eq_some_iff.mpr ha, Option.some_or]
    · intro slot hslot
      rw [get?_of_patch hlen h, lookup_reverse_eq_none_iff.mpr hslot, Option.none_or]

/-- The slot at the end is assigned before and after the one in front of it. -/
theorem patch_determined_by_last_assignments_repeated :
    let blob : Bytes := [1, 2, 3, 4, 5, 6, 7, 8]
    let as : List Assignment := [(1, [10, 11, 12]), (0, [13, 14, 15]), (1, [20, 21, 22])]
    let bs : List Assignment := [(0, [13, 14, 15]), (1, [20, 21, 22])]
    blob.length < UInt64.size ∧ (∀ a ∈ as, Valid 3 blob.length a) ∧ (bs.map Prod.fst).Nodup ∧
      (∀ out, patch blob 3 bs = .ok out ↔ patch blob 3 bs.reverse = .ok out) ∧
      ∃ out, patch blob 3 as = .ok out ∧ patch blob 3 (lastByKey as) = .ok out ∧
        get? out 1 3 = some [20, 21, 22] ∧ get? out 2 3 = get? blob 2 3 := by
  intro blob as bs
  have hlen : blob.length < UInt64.size := by decide
  have hvalid : ∀ a ∈ as, Valid 3 blob.length a := by
    intro a ha
    simp only [as, List.mem_cons, List.not_mem_nil, or_false] at ha
    rcases ha with rfl | rfl | rfl <;> exact ⟨rfl, by decide⟩
  have hslots : (bs.map Prod.fst).Nodup := by decide
  obtain ⟨-, hperm, hlast⟩ := patch_determined_by_last_assignments hlen 3
  obtain ⟨hcoalesced, out, hout, hcs, hassigned, hkept⟩ := hlast as hvalid
  have hpair : IsLast as (1, [20, 21, 22]) :=
    ⟨[(1, [10, 11, 12]), (0, [13, 14, 15])], [], rfl, by simp⟩
  exact ⟨hlen, hvalid, hslots, hperm bs bs.reverse (List.reverse_perm bs).symm hslots, out, hout,
    hcs _ hcoalesced, hassigned _ hpair, hkept 2 (by decide)⟩

end ShardedRecords.Slots
