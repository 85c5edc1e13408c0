import ShardedRecords.Bytes

/-!
# Slots

A blob read as an array of slots of one width, which is given with each call
and not stored. Slot `i` of width `w` is the byte range from `i * w` up to, and
not including, `i * w + w`, both calculated in words; bytes behind the last whole slot
belong to none. Writing to several slots is all-or-nothing.
-/
namespace ShardedRecords

inductive SlotError
  | wrongLength (slot length width : Nat)
  | outOfRange (slot width blobLength : Nat)
  deriving DecidableEq, Repr

namespace SlotError

def message : SlotError → String
  | wrongLength slot length width =>
    s!"slot {slot}: replacement is {length} bytes, slot width is {width}"
  | outOfRange slot width blobLength =>
    s!"slot {slot} (width {width}) does not fit in a {blobLength}-byte blob"

/-- Whether the arguments of the call are at fault, rather than the blob. -/
def isCallerBug : SlotError → Bool
  | wrongLength .. => true
  | outOfRange .. => false

end SlotError

/-- A slot and the bytes to put there. -/
abbrev Assignment := Nat × Bytes

namespace Slots

/-- The number of whole slots, and none where slots have no width. -/
def count (blobLength width : Nat) : Nat := blobLength / width

/-- What a calculation in words of 64 bits comes to, unless it leaves them. -/
def word? (n : Nat) : Option Nat := if n < UInt64.size then some n else none

/-- The ends of a slot. -/
def range? (slot width : Nat) : Option (Nat × Nat) := do
  let start ← word? (slot * width)
  let stop ← word? (start + width)
  return (start, stop)

/-- Where a slot begins, if all of it lies in the blob. -/
def start (slot width blobLength : Nat) : Except SlotError Nat :=
  match range? slot width with
  | none => .error (.outOfRange slot width blobLength)
  | some (start, stop) =>
    if stop ≤ blobLength then .ok start else .error (.outOfRange slot width blobLength)

theorem range?_eq (slot width : Nat) : range? slot width =
    if slot * width + width < UInt64.size then some (slot * width, slot * width + width)
    else none := by
  by_cases hstop : slot * width + width < UInt64.size
  · have hstart : slot * width < UInt64.size := by omega
    rw [range?, word?, if_pos hstart, Option.bind_eq_bind, Option.bind_some, word?, if_pos hstop,
      if_pos hstop]
    rfl
  · rw [if_neg hstop]
    by_cases hstart : slot * width < UInt64.size
    · rw [range?, word?, if_pos hstart, Option.bind_eq_bind, Option.bind_some, word?, if_neg hstop]
      rfl
    · rw [range?, word?, if_neg hstart]
      rfl

/-- A slot that leaves the words lies in no blob of which the length is one. -/
theorem start_eq {blobLength : Nat} (hlen : blobLength < UInt64.size) (slot width : Nat) :
    start slot width blobLength =
      if slot * width + width ≤ blobLength then .ok (slot * width)
      else .error (.outOfRange slot width blobLength) := by
  rw [start, range?_eq]
  by_cases h : slot * width + width < UInt64.size
  · rw [if_pos h]
  · rw [if_neg h, if_neg (by omega)]

theorem start_eq_ok {slot width blobLength i : Nat} (h : start slot width blobLength = .ok i) :
    i = slot * width ∧ i + width ≤ blobLength := by
  rw [start, range?_eq] at h
  by_cases hw : slot * width + width < UInt64.size
  · rw [if_pos hw] at h
    by_cases hle : slot * width + width ≤ blobLength
    · simp only [if_pos hle] at h
      cases h
      exact ⟨rfl, hle⟩
    · simp only [if_neg hle] at h
      cases h
  · rw [if_neg hw] at h
    cases h

def get? (blob : Bytes) (slot width : Nat) : Option Bytes :=
  match start slot width blob.length with
  | .ok i => some ((blob.drop i).take width)
  | .error _ => none

/-- Where an assignment writes. Its length is checked before its place. -/
def check (width blobLength : Nat) (a : Assignment) : Except SlotError Nat :=
  if a.2.length = width then start a.1 width blobLength
  else .error (.wrongLength a.1 a.2.length width)

def overwrite (blob : Bytes) (i : Nat) (bs : Bytes) : Bytes :=
  blob.take i ++ bs ++ blob.drop (i + bs.length)

theorem length_overwrite {blob bs : Bytes} {i : Nat} (h : i + bs.length ≤ blob.length) :
    (overwrite blob i bs).length = blob.length := by
  simp only [overwrite, List.length_append, List.length_take, List.length_drop]
  omega

/-- The bytes outside of the written range stay. -/
theorem getElem?_overwrite {blob bs : Bytes} {i : Nat} (h : i + bs.length ≤ blob.length) (j : Nat) :
    (overwrite blob i bs)[j]? = if i ≤ j ∧ j < i + bs.length then bs[j - i]? else blob[j]? := by
  have hi : (blob.take i).length = i := by rw [List.length_take]; omega
  unfold overwrite
  by_cases hl : j < i
  · have hn : ¬(i ≤ j ∧ j < i + bs.length) := by omega
    rw [if_neg hn, List.append_assoc, List.getElem?_append_left (by omega),
      List.getElem?_take_of_lt hl]
  · by_cases hr : j < i + bs.length
    · rw [if_pos ⟨by omega, hr⟩, List.getElem?_append_left (by rw [List.length_append]; omega),
        List.getElem?_append_right (by omega), hi]
    · have hn : ¬(i ≤ j ∧ j < i + bs.length) := by omega
      rw [if_neg hn, List.getElem?_append_right (by rw [List.length_append]; omega),
        List.getElem?_drop, List.length_append, hi]
      congr 1
      omega

def assign (width : Nat) (blob : Bytes) (a : Assignment) : Except SlotError Bytes :=
  (check width blob.length a).map fun i => overwrite blob i a.2

/-- Writes the assignments in order, so of two to one slot the later counts.
The first that is not valid decides the error. -/
def patch (blob : Bytes) (width : Nat) (as : List Assignment) : Except SlotError Bytes :=
  as.foldlM (assign width) blob

/-- A checked assignment: where it writes, and what. -/
def place (width blobLength : Nat) (a : Assignment) : Except SlotError (Nat × Bytes) :=
  (check width blobLength a).map fun i => (i, a.2)

/-- The number of assignments written, with the buffer behind the call. All of
them are checked before the first is written. -/
def patchBuffer (buf : Bytes) (width : Nat) (as : List Assignment) :
    Except SlotError Nat × Bytes :=
  match as.mapM (place width buf.length) with
  | .error f => (.error f, buf)
  | .ok writes => (.ok writes.length, writes.foldl (fun buf (i, bs) => overwrite buf i bs) buf)

end Slots

end ShardedRecords
