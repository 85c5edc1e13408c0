import ShardedRecords.Proofs.Slots

/-!
# What a patch makes of a blob

Assignments are written if all of them are valid, and then each byte of an assigned slot is
the one that was assigned to it last, and every other byte is what it was. Whether the bytes
go into a copy or into the blob itself makes no difference: either all is written or nothing.
-/
namespace ShardedRecords.Slots

variable {blob out : Bytes} {width : Nat} {a : Assignment} {as : List Assignment}

/-- No later assignment is to the same slot. -/
def IsLast (as : List Assignment) (a : Assignment) : Prop :=
  ∃ before after, as = before ++ a :: after ∧ ∀ a' ∈ after, a'.1 ≠ a.1

theorem lookup_reverse_eq_some_iff {slot : Nat} {bs : Bytes} :
    as.reverse.lookup slot = some bs ↔ IsLast as (slot, bs) := by
  rw [List.lookup_eq_some_iff]
  constructor
  · rintro ⟨after, before, hsplit, hafter⟩
    have has : as = before.reverse ++ (slot, bs) :: after.reverse := by
      simpa using congrArg List.reverse hsplit
    have hne : ∀ a' ∈ after.reverse, a'.1 ≠ slot := by
      intro a' ha'
      simpa using Ne.symm (bne_iff_ne.mp (hafter a' (List.mem_reverse.mp ha')))
    exact ⟨before.reverse, after.reverse, has, hne⟩
  · rintro ⟨before, after, rfl, hafter⟩
    have hne : ∀ a' ∈ after.reverse, (slot != a'.1) = true := by
      intro a' ha'
      simpa using Ne.symm (hafter a' (List.mem_reverse.mp ha'))
    exact ⟨after.reverse, before.reverse, by simp, hne⟩

theorem lookup_reverse_eq_none_iff {slot : Nat} :
    as.reverse.lookup slot = none ↔ ∀ a ∈ as, a.1 ≠ slot := by
  simp only [List.lookup_eq_none_iff, List.mem_reverse, bne_iff_ne, ne_comm]

/-! ## Bytes -/

/-- The byte at `p` belongs to the slot. -/
def Covers (width slot p : Nat) : Prop := slot * width ≤ p ∧ p < (slot + 1) * width

theorem covers_div (hwidth : 0 < width) (p : Nat) : Covers width (p / width) p := by
  have hmod := Nat.mod_lt p hwidth
  have hdiv := Nat.div_add_mod p width
  rw [Nat.mul_comm] at hdiv
  rw [Covers, Nat.add_one_mul]
  omega

/-- The bytes that were assigned last stand in their slots, and all others where they were. -/
structure Patched (blob : Bytes) (width : Nat) (as : List Assignment) (out : Bytes) : Prop where
  length_eq : out.length = blob.length
  assigned : ∀ a, IsLast as a → ∀ j < width, out[a.1 * width + j]? = a.2[j]?
  kept : ∀ p, (∀ a ∈ as, ¬Covers width a.1 p) → out[p]? = blob[p]?

/-- Slots without a width are written without effect. -/
theorem eq_of_patch_zero (h : patch blob 0 as = .ok out) : out = blob := by
  induction as using List.reverseRecOn generalizing out with
  | nil =>
    cases h
    rfl
  | append_singleton as a ih =>
    obtain ⟨mid, hmid, hassign⟩ := patch_concat.mp h
    obtain ⟨hlength, -, rfl⟩ := eq_of_assign hassign
    simp [overwrite, List.eq_nil_of_length_eq_zero hlength, ih hmid]

theorem patched_of_patch (h : patch blob width as = .ok out) : Patched blob width as out := by
  constructor
  · exact length_of_patch h
  · intro a ha j hj
    obtain ⟨hslot, hoffset⟩ := div_mod_offset hj a.1
    rw [getElem?_of_patch (Nat.zero_lt_of_lt hj) h, hslot, hoffset,
      lookup_reverse_eq_some_iff.mpr ha]
  · intro p hp
    rcases Nat.eq_zero_or_pos width with rfl | hwidth
    · rw [eq_of_patch_zero h]
    · have hnone : as.reverse.lookup (p / width) = none := by
        rw [lookup_reverse_eq_none_iff]
        intro a ha heq
        exact hp a ha (heq ▸ covers_div hwidth p)
      rw [getElem?_of_patch hwidth h, hnone]

/-- A patch succeeds if each assignment is valid, whatever the order, and otherwise the first
one that is not is named. What it makes of the blob is settled byte by byte. Slots and widths
may be as large as they like: a product that leaves the words is found to be out of range. -/
theorem patch_exact (hlen : blob.length < UInt64.size) (width : Nat) (as : List Assignment) :
    ((∃ out, patch blob width as = .ok out) ↔ ∀ a ∈ as, Valid width blob.length a) ∧
    (∀ f, patch blob width as = .error f ↔ ∃ before a after, as = before ++ a :: after ∧
      (∀ a' ∈ before, Valid width blob.length a') ∧ Refused width blob.length a f) ∧
    ∀ out, patch blob width as = .ok out → Patched blob width as out := by
  constructor
  · exact exists_patch_iff_valid hlen
  constructor
  · intro f
    exact patch_eq_error_iff_refused hlen
  · intro out h
    exact patched_of_patch h

/-- Two slots of three bytes and a tail of two. One slot is written twice; then there is one
assignment between others to a slot far behind the end of every blob. -/
theorem patch_exact_repeated_slot :
    let blob : Bytes := [1, 2, 3, 4, 5, 6, 7, 8]
    let twice : List Assignment := [(1, [10, 11, 12]), (1, [20, 21, 22])]
    let farAway : Assignment := (UInt64.size - 1, [20, 21, 22])
    blob.length < UInt64.size ∧
      patch blob 3 twice = .ok [1, 2, 3, 20, 21, 22, 7, 8] ∧
      Patched blob 3 twice [1, 2, 3, 20, 21, 22, 7, 8] ∧
      patch blob 3 [(1, [10, 11, 12]), farAway, (0, [])] =
        .error (.outOfRange (UInt64.size - 1) 3 8) := by
  intro blob twice farAway
  have hlen : blob.length < UInt64.size := by decide
  have htwice : patch blob 3 twice = .ok [1, 2, 3, 20, 21, 22, 7, 8] := by decide +kernel
  obtain ⟨-, -, hpatched⟩ := patch_exact hlen 3 twice
  obtain ⟨-, hfault, -⟩ := patch_exact hlen 3 [(1, [10, 11, 12]), farAway, (0, [])]
  have hbefore : ∀ a ∈ [((1, [10, 11, 12]) : Assignment)], Valid 3 blob.length a := by
    intro a ha
    rw [List.mem_singleton.mp ha]
    exact ⟨rfl, by decide⟩
  have hrefused : Refused 3 blob.length farAway (.outOfRange (UInt64.size - 1) 3 8) :=
    .outOfRange rfl (by decide)
  exact ⟨hlen, htwice, hpatched _ htwice, (hfault _).mpr ⟨_, _, _, rfl, hbefore, hrefused⟩⟩

/-! ## In place -/

/-- Checking all assignments before writing the first one comes to the same as checking each
of them before it is written into a copy, and a buffer that is not written stays as it is. -/
theorem patchBuffer_eq_patch (buf : Bytes) (width : Nat) (as : List Assignment) :
    patchBuffer buf width as = match patch buf width as with
      | .ok out => (.ok as.length, out)
      | .error f => (.error f, buf) := by
  rw [patchBuffer, patch_eq_mapM]
  cases hwrites : as.mapM (place width buf.length) with
  | error f => rfl
  | ok writes =>
    have hcount : writes.length = as.length := (Except.mapM_eq_ok.mp hwrites).length_eq.symm
    simp only [hcount]
    rfl

end ShardedRecords.Slots
