import Mathlib.Data.List.Induction
import ShardedRecords.Proofs.Answers
import ShardedRecords.Slots

/-!
# Patched blobs

A patched blob is as long as before. Each of its slots has what the last
assignment to it put there, or what it had, and so has each single byte.
-/
namespace ShardedRecords

/-- The bytes of a range, if all of it lies in the byte string. -/
def Bytes.slice? (bs : Bytes) (start length : Nat) : Option Bytes :=
  if start + length ≤ bs.length then some ((bs.drop start).take length) else none

namespace Slots

variable {blob out : Bytes} {width : Nat} {a : Assignment} {as : List Assignment}

theorem get?_eq_slice? (hlen : blob.length < UInt64.size) (slot width : Nat) :
    get? blob slot width = Bytes.slice? blob (slot * width) width := by
  rw [get?, start_eq hlen, Bytes.slice?]
  by_cases h : slot * width + width ≤ blob.length
  · rw [if_pos h, if_pos h]
  · rw [if_neg h, if_neg h]

/-! ## One assignment -/

theorem eq_of_assign (h : assign width blob a = .ok out) :
    a.2.length = width ∧ a.1 * width + width ≤ blob.length ∧
      out = overwrite blob (a.1 * width) a.2 := by
  obtain ⟨i, hcheck, rfl⟩ := Except.map_eq_ok.mp h
  rw [check] at hcheck
  by_cases hwidth : a.2.length = width
  · rw [if_pos hwidth] at hcheck
    obtain ⟨rfl, hfits⟩ := start_eq_ok hcheck
    exact ⟨hwidth, hfits, rfl⟩
  · rw [if_neg hwidth] at hcheck
    cases hcheck

theorem length_of_assign (h : assign width blob a = .ok out) : out.length = blob.length := by
  obtain ⟨rfl, hfits, rfl⟩ := eq_of_assign h
  exact length_overwrite hfits

theorem getElem?_of_assign (hwidth : 0 < width) (h : assign width blob a = .ok out) (p : Nat) :
    out[p]? = if p / width = a.1 then a.2[p % width]? else blob[p]? := by
  obtain ⟨rfl, hfits, rfl⟩ := eq_of_assign h
  have hp := Nat.div_add_mod p a.2.length
  have hr := Nat.mod_lt p hwidth
  rw [getElem?_overwrite hfits]
  by_cases hslot : p / a.2.length = a.1
  · have hoffset : p - a.1 * a.2.length = p % a.2.length := by
      rw [← hslot, Nat.mul_comm]
      omega
    rw [if_pos hslot, if_pos ?_, hoffset]
    rw [← hslot, Nat.mul_comm]
    omega
  · rw [if_neg hslot, if_neg ?_]
    rintro ⟨hle, hlt⟩
    exact hslot (Nat.div_eq_of_lt_le hle (by rwa [Nat.add_mul, Nat.one_mul]))

/-- Which slot the byte at an offset in a slot belongs to. -/
theorem div_mod_offset {j : Nat} (hj : j < width) (slot : Nat) :
    (slot * width + j) / width = slot ∧ (slot * width + j) % width = j := by
  apply (Nat.div_mod_unique (Nat.zero_lt_of_lt hj)).mpr
  exact ⟨by rw [Nat.mul_comm, Nat.add_comm], hj⟩

/-- Distinct slots do not overlap. -/
theorem slice?_of_assign (h : assign width blob a = .ok out) (slot : Nat) :
    Bytes.slice? out (slot * width) width =
      if slot = a.1 then some a.2 else Bytes.slice? blob (slot * width) width := by
  obtain ⟨hlen, hfits, -⟩ := eq_of_assign h
  have hbyte : ∀ j, j < width → out[slot * width + j]? =
      if slot = a.1 then a.2[j]? else blob[slot * width + j]? := by
    intro j hj
    obtain ⟨hslot, hoffset⟩ := div_mod_offset hj slot
    rw [getElem?_of_assign (Nat.zero_lt_of_lt hj) h, hslot, hoffset]
  rw [Bytes.slice?, Bytes.slice?, length_of_assign h]
  by_cases hslot : slot = a.1
  · rw [if_pos hslot, hslot, if_pos hfits, ← hslot]
    congr 1
    refine List.ext_getElem? fun j => ?_
    by_cases hj : j < width
    · rw [List.getElem?_take_of_lt hj, List.getElem?_drop, hbyte j hj, if_pos hslot]
    · rw [List.getElem?_take_eq_none (by omega), List.getElem?_eq_none (by omega)]
  · rw [if_neg hslot]
    congr 2
    refine List.ext_getElem? fun j => ?_
    by_cases hj : j < width
    · rw [List.getElem?_take_of_lt hj, List.getElem?_take_of_lt hj, List.getElem?_drop,
        List.getElem?_drop, hbyte j hj, if_neg hslot]
    · rw [List.getElem?_take_eq_none (by omega), List.getElem?_take_eq_none (by omega)]

/-! ## Checks -/

/-- There is such a slot, and the bytes are as many as its own. -/
structure Valid (width blobLength : Nat) (a : Assignment) : Prop where
  length_eq : a.2.length = width
  fits : (a.1 + 1) * width ≤ blobLength

/-- Why an assignment is not valid. That there is no such slot is only said if the number of
bytes is right. -/
inductive Refused (width blobLength : Nat) (a : Assignment) : SlotError → Prop
  | wrongLength (h : a.2.length ≠ width) :
      Refused width blobLength a (.wrongLength a.1 a.2.length width)
  | outOfRange (hlength : a.2.length = width) (h : blobLength < (a.1 + 1) * width) :
      Refused width blobLength a (.outOfRange a.1 width blobLength)

theorem eq_outOfRange_of_check {blobLength : Nat} {f : SlotError} (ha : a.2.length = width)
    (h : check width blobLength a = .error f) : f = .outOfRange a.1 width blobLength := by
  unfold check at h
  rw [if_pos ha, start] at h
  cases hrange : range? a.1 width with
  | none =>
    simp only [hrange, Except.error.injEq] at h
    exact h.symm
  | some range =>
    simp only [hrange] at h
    split at h
    · cases h
    · exact (Except.error.inj h).symm

section Words

variable {blobLength : Nat} (hlen : blobLength < UInt64.size)
include hlen

theorem exists_check_iff :
    (∃ i, check width blobLength a = .ok i) ↔ Valid width blobLength a := by
  rw [check, start_eq hlen, ← Nat.add_one_mul]
  constructor
  · rintro ⟨i, h⟩
    split at h
    · split at h
      · exact ⟨by assumption, by assumption⟩
      · cases h
    · cases h
  · intro h
    simp [h.length_eq, h.fits]

theorem check_eq_error_iff {f : SlotError} :
    check width blobLength a = .error f ↔ Refused width blobLength a f := by
  rw [check, start_eq hlen, ← Nat.add_one_mul]
  constructor
  · intro h
    split at h
    · split at h
      · cases h
      · cases h
        exact .outOfRange (by assumption) (Nat.not_le.mp (by assumption))
    · cases h
      exact .wrongLength (by assumption)
  · intro h
    cases h with
    | wrongLength h => simp [h]
    | outOfRange hlength h => simp [hlength, Nat.not_le.mpr h]

end Words

/-! ## All assignments -/

/-- What checked assignments make of a blob. -/
def writeAll (blob : Bytes) (writes : List (Nat × Bytes)) : Bytes :=
  writes.foldl (fun blob write => overwrite blob write.1 write.2) blob

/-- It makes no difference whether each assignment is checked just before it is written or
all of them at first, since no write changes the length. -/
theorem patch_eq_mapM (blob : Bytes) (width : Nat) (as : List Assignment) :
    patch blob width as = (as.mapM (place width blob.length)).map (writeAll blob) := by
  induction as generalizing blob with
  | nil => rfl
  | cons a as ih =>
    have hpatch : patch blob width (a :: as) =
      assign width blob a >>= fun mid => patch mid width as := rfl
    rw [hpatch, List.mapM_cons]
    cases hcheck : check width blob.length a with
    | error f => simp [assign, place, hcheck, Except.map, bind, Except.bind]
    | ok i =>
      have hassign : assign width blob a = .ok (overwrite blob i a.2) := by
        simp [assign, hcheck, Except.map]
      have hplace : place width blob.length a = .ok (i, a.2) := by
        simp [place, hcheck, Except.map]
      have hrest := ih (overwrite blob i a.2)
      rw [length_of_assign hassign] at hrest
      rw [hassign, hplace]
      simp only [bind, Except.bind, hrest]
      cases as.mapM (place width blob.length) <;> rfl

theorem exists_place_iff {blobLength : Nat} : (∃ write, place width blobLength a = .ok write) ↔
    ∃ i, check width blobLength a = .ok i := by
  simp [place, Except.map_eq_ok]

/-- Assignments are written if each of them is valid. -/
theorem exists_patch_iff : (∃ out, patch blob width as = .ok out) ↔
    ∀ a ∈ as, ∃ i, check width blob.length a = .ok i := by
  simp only [patch_eq_mapM, Except.map_eq_ok, exists_comm (α := Bytes), exists_and_left,
    exists_eq', and_true, Except.exists_mapM_eq_ok_iff, exists_place_iff]

/-- The first assignment that is not valid decides the error, whatever was written before. -/
theorem patch_eq_error_iff {f : SlotError} : patch blob width as = .error f ↔
    ∃ before a after, as = before ++ a :: after ∧
      (∀ a' ∈ before, ∃ i, check width blob.length a' = .ok i) ∧
      check width blob.length a = .error f := by
  simp only [patch_eq_mapM, Except.map_eq_error, Except.mapM_eq_error_iff, exists_place_iff]
  simp only [place, Except.map_eq_error]

theorem patch_concat : patch blob width (as ++ [a]) = .ok out ↔
    ∃ mid, patch blob width as = .ok mid ∧ assign width mid a = .ok out := by
  rw [patch, List.foldlM_append, Except.bind_eq_ok]
  refine exists_congr fun mid => and_congr_right fun _ => ?_
  rw [List.foldlM_cons, Except.bind_eq_ok]
  constructor
  · rintro ⟨out', hassign, h⟩
    cases h
    exact hassign
  · intro hassign
    exact ⟨out, hassign, rfl⟩

theorem length_of_patch (h : patch blob width as = .ok out) : out.length = blob.length := by
  induction as using List.reverseRecOn generalizing out with
  | nil => cases h; rfl
  | append_singleton as a ih =>
    obtain ⟨mid, hmid, hassign⟩ := patch_concat.mp h
    rw [length_of_assign hassign, ih hmid]

theorem fits_of_patch (h : patch blob width as = .ok out) :
    ∀ a ∈ as, a.1 * width + width ≤ blob.length := by
  induction as using List.reverseRecOn generalizing out with
  | nil => exact fun a ha => nomatch ha
  | append_singleton as a ih =>
    obtain ⟨mid, hmid, hassign⟩ := patch_concat.mp h
    obtain ⟨-, hfits, -⟩ := eq_of_assign hassign
    rw [length_of_patch hmid] at hfits
    intro a' ha'
    rcases List.mem_append.mp ha' with ha' | ha'
    · exact ih hmid a' ha'
    · rwa [List.mem_singleton.mp ha']

section Words

variable (hlen : blob.length < UInt64.size)
include hlen

theorem exists_patch_iff_valid : (∃ out, patch blob width as = .ok out) ↔
    ∀ a ∈ as, Valid width blob.length a := by
  simp only [exists_patch_iff, exists_check_iff hlen]

theorem patch_eq_error_iff_refused {f : SlotError} : patch blob width as = .error f ↔
    ∃ before a after, as = before ++ a :: after ∧
      (∀ a' ∈ before, Valid width blob.length a') ∧ Refused width blob.length a f := by
  simp only [patch_eq_error_iff, exists_check_iff hlen, check_eq_error_iff hlen]

variable (has : ∀ a ∈ as, a.2.length = width)
include has

/-- Values as long as slots are written if there are slots for all of them. -/
theorem exists_patch_iff_of_lengths : (∃ out, patch blob width as = .ok out) ↔
    ∀ a ∈ as, (a.1 + 1) * width ≤ blob.length := by
  rw [exists_patch_iff_valid hlen]
  exact forall₂_congr fun a ha => ⟨fun h => h.fits, fun h => ⟨has a ha, h⟩⟩

/-- The first of them for which there is no slot is named in the error. -/
theorem exists_first_missing_of_patch_error {f : SlotError} (h : patch blob width as = .error f) :
    ∃ before a after, as = before ++ a :: after ∧
      (∀ a' ∈ before, (a'.1 + 1) * width ≤ blob.length) ∧
      blob.length < (a.1 + 1) * width ∧ f = .outOfRange a.1 width blob.length := by
  obtain ⟨before, a, after, hsplit, hbefore, hrefused⟩ := (patch_eq_error_iff_refused hlen).mp h
  have hlength : a.2.length = width := has a (by simp [hsplit])
  cases hrefused with
  | wrongLength hne => exact absurd hlength hne
  | outOfRange _ hmissing =>
    exact ⟨before, a, after, hsplit, fun a' ha' => (hbefore a' ha').fits, hmissing, rfl⟩

end Words

theorem getElem?_of_patch (hwidth : 0 < width) (h : patch blob width as = .ok out) (p : Nat) :
    out[p]? = match as.reverse.lookup (p / width) with
      | some bs => bs[p % width]?
      | none => blob[p]? := by
  induction as using List.reverseRecOn generalizing out with
  | nil => cases h; rfl
  | append_singleton as a ih =>
    obtain ⟨mid, hmid, hassign⟩ := patch_concat.mp h
    rw [getElem?_of_assign hwidth hassign, List.reverse_append, List.reverse_singleton,
      List.singleton_append, List.lookup_cons, ih hmid]
    by_cases hslot : p / width = a.1
    · rw [if_pos hslot, beq_iff_eq.mpr hslot]
    · rw [if_neg hslot, beq_eq_false_iff_ne.mpr hslot]

theorem slice?_of_patch (h : patch blob width as = .ok out) (slot : Nat) :
    Bytes.slice? out (slot * width) width =
      (as.reverse.lookup slot).or (Bytes.slice? blob (slot * width) width) := by
  induction as using List.reverseRecOn generalizing out with
  | nil => cases h; rfl
  | append_singleton as a ih =>
    obtain ⟨mid, hmid, hassign⟩ := patch_concat.mp h
    rw [slice?_of_assign hassign, List.reverse_append, List.reverse_singleton,
      List.singleton_append, List.lookup_cons, ih hmid]
    by_cases hslot : slot = a.1
    · rw [if_pos hslot, beq_iff_eq.mpr hslot, Option.some_or]
    · rw [if_neg hslot, beq_eq_false_iff_ne.mpr hslot]

end Slots

end ShardedRecords
