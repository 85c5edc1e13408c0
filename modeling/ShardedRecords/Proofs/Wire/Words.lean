import ShardedRecords.Proofs.Base128.Words
import ShardedRecords.Proofs.Wire.Confined
import ShardedRecords.Proofs.Wire.Grammar

/-!
# Reading with words

A reader on 64-bit words keeps its position in a word and takes slices out of its buffer.
Here every sum, difference and slice is checked and gives nothing unless it is exact and in
the buffer. From a position in a buffer of less than 2^63 bytes none of them gives nothing,
and what is read is what the reader of exact numbers reads.
-/
namespace ShardedRecords

variable {α β : Type}

/-- In a buffer and from a position on, what is answered and where the read stops. -/
abbrev WordReader (α : Type) := Bytes → UInt64 → Option (Except WireError α × UInt64)

namespace WordReader

open Base128.Words

/-- A number, unless no word holds it. -/
def word? (n : Nat) : Option UInt64 := if n < UInt64.size then some (.ofNat n) else none

/-- The bytes between two positions, unless these are in the wrong order or behind the end. -/
def slice? (buf : Bytes) (start stop : UInt64) : Option Bytes :=
  if start ≤ stop ∧ stop.toNat ≤ buf.length then
    some ((buf.drop start.toNat).take (stop - start).toNat)
  else none

def remaining? (buf : Bytes) (pos : UInt64) : Option UInt64 := do
  let length ← word? buf.length
  sub? length pos

def andThen? (r : WordReader α) (f : α → WordReader β) : WordReader β := fun buf pos => do
  match ← r buf pos with
  | (.ok a, pos) => f a buf pos
  | (.error fault, pos) => return (.error fault, pos)

def map? (f : α → β) (r : WordReader α) : WordReader β :=
  r.andThen? fun a _ pos => some (.ok (f a), pos)

def take? (n : Nat) : WordReader Bytes := fun buf pos => do
  let n ← word? n
  let remaining ← remaining? buf pos
  if remaining < n then return (.error (.truncated pos.toNat n.toNat remaining.toNat), pos)
  else
    let stop ← add? pos n
    let bytes ← slice? buf pos stop
    return (.ok bytes, stop)

/-- The slice must have all the bytes of the number. -/
def littleEndian? (width : Nat) : WordReader Nat :=
  (take? width).andThen? fun bytes _ pos =>
    if width ≤ bytes.length then some (.ok (LittleEndian.value (bytes.take width)), pos) else none

def count? : Encoding → WordReader Nat
  | .fixed => littleEndian? 8
  | .varint => read?

def length? : Encoding → WordReader Nat
  | .fixed => littleEndian? 4
  | .varint => read?

def field? (e : Encoding) : WordReader Bytes :=
  (length? e).andThen? take?

/-! ## The reads of exact numbers -/

/-- From every position in a buffer, no calculation on words fails, and the answer and the
position are those of the reader of exact numbers. -/
def Computes (w : WordReader α) (r : Reader α) : Prop :=
  ∀ (buf : Bytes) (c : Cursor), buf.length < 2 ^ 63 → c.Within buf →
    w buf (.ofNat c.pos) = some ((c.read r).1, .ofNat (c.read r).2.pos)

theorem word?_of_lt {n : Nat} (h : n < UInt64.size) :
    word? n = some (.ofNat n) ∧ (UInt64.ofNat n).toNat = n :=
  ⟨if_pos h, UInt64.toNat_ofNat_of_lt' h⟩

theorem add?_of_lt {m n : Nat} (h : m + n < UInt64.size) :
    add? (.ofNat m) (.ofNat n) = some (.ofNat (m + n)) := by
  have hm := (word?_of_lt (Nat.lt_of_le_of_lt (Nat.le_add_right m n) h)).2
  have hn := (word?_of_lt (Nat.lt_of_le_of_lt (Nat.le_add_left n m) h)).2
  rw [add?, hm, hn, if_pos h, UInt64.ofNat_add]

section

variable {buf : Bytes} {c : Cursor}

theorem toNat_pos (hbuf : buf.length < 2 ^ 63) (hc : c.Within buf) :
    (UInt64.ofNat c.pos).toNat = c.pos := by
  refine (word?_of_lt (Nat.lt_of_le_of_lt hc.pos_le ?_)).2
  exact hbuf.trans (by decide)

/-- The difference in `remaining?` is never negative. -/
theorem remaining?_eq (hbuf : buf.length < 2 ^ 63) (hc : c.Within buf) :
    remaining? buf (.ofNat c.pos) = some (.ofNat c.remaining) ∧
      (UInt64.ofNat c.remaining).toNat = c.remaining := by
  have hsize : buf.length < UInt64.size := hbuf.trans (by decide)
  have hstop := hc.pos_add_remaining
  obtain ⟨hlength, hlengthNat⟩ := word?_of_lt hsize
  have hremaining := (word?_of_lt (n := c.remaining) (by omega)).2
  have hle : (UInt64.ofNat c.pos).toNat ≤ (UInt64.ofNat buf.length).toNat := by
    rw [toNat_pos hbuf hc, hlengthNat]
    exact hc.pos_le
  obtain ⟨hsub, hsubNat⟩ := sub?_of_le hle
  refine ⟨?_, hremaining⟩
  rw [remaining?, hlength, Option.bind_eq_bind, Option.bind_some, hsub]
  apply congrArg some
  apply UInt64.toNat_inj.mp
  rw [hsubNat, hremaining, hlengthNat, toNat_pos hbuf hc]
  omega

theorem slice?_eq (hbuf : buf.length < 2 ^ 63) (hc : c.Within buf) {n : Nat}
    (hn : n ≤ c.remaining) :
    slice? buf (.ofNat c.pos) (.ofNat (c.pos + n)) = some (c.rest.take n) := by
  have hsize : buf.length < UInt64.size := hbuf.trans (by decide)
  have hstop := hc.pos_add_remaining
  have hstart := toNat_pos hbuf hc
  have hstopNat := (word?_of_lt (n := c.pos + n) (by omega)).2
  have hle : UInt64.ofNat c.pos ≤ UInt64.ofNat (c.pos + n) := by
    rw [UInt64.le_iff_toNat_le, hstart, hstopNat]
    exact Nat.le_add_right ..
  rw [slice?, if_pos ⟨hle, by omega⟩, UInt64.toNat_sub_of_le _ _ hle, hstart, hstopNat,
    Nat.add_sub_cancel_left, hc.rest_eq]

end

namespace Computes

theorem take {n : Nat} (hn : n < UInt64.size) : Computes (take? n) (.take n) := by
  intro buf c hbuf hc
  have hsize : buf.length < UInt64.size := hbuf.trans (by decide)
  have hstop := hc.pos_add_remaining
  obtain ⟨hword, hwordNat⟩ := word?_of_lt hn
  obtain ⟨hremaining, hremainingNat⟩ := remaining?_eq hbuf hc
  simp only [take?, hword, hremaining, Option.bind_eq_bind, Option.bind_some,
    UInt64.lt_iff_toNat_lt, hwordNat, hremainingNat, toNat_pos hbuf hc, Cursor.read_take]
  by_cases h : c.remaining < n
  · rw [if_pos h, Bytes.cut?_eq_none_iff.mpr h]
    rfl
  · have hcut : Bytes.cut? n c.rest = some (c.rest.take n, c.rest.drop n) := by
      rw [Bytes.cut?_eq]
      exact if_pos (Nat.not_lt.mp h)
    have hadd := add?_of_lt (m := c.pos) (n := n) (by omega)
    rw [if_neg h, hadd, Option.bind_some, slice?_eq hbuf hc (Nat.not_lt.mp h), hcut]
    rfl

theorem base128 : Computes read? .base128 := by
  intro buf c hbuf hc
  obtain ⟨pos, hread, hpos⟩ := read?_eq hbuf (.ofNat c.pos)
  have hat : Cursor.ofBytesAt buf c.pos = c := by
    rw [Cursor.ofBytesAt, ← hc.rest_eq]
  rw [toNat_pos hbuf hc, hat] at hread hpos
  rw [hread, ← hpos, UInt64.ofNat_toNat]

/-- What the first read answers has to be enough for the second one. -/
theorem andThen {w : WordReader α} {r : Reader α} {v : α → WordReader β} {f : α → Reader β}
    (hw : Computes w r) (hr : r.Advances)
    (hv : ∀ c c' a, Cursor.read c r = (.ok a, c') → Computes (v a) (f a)) :
    Computes (w.andThen? v) (r >>= f) := by
  intro buf c hbuf hc
  have hfirst := hw buf c hbuf hc
  obtain ⟨hc', -⟩ := hr.within hc
  rw [andThen?, hfirst, Cursor.read_bind]
  rcases hread : c.read r with ⟨fault | a, c'⟩
  · rfl
  · rw [hread] at hc'
    exact hv c c' a hread buf c' hbuf hc'

theorem littleEndian {width : Nat} (hwidth : width < UInt64.size) :
    Computes (littleEndian? width) (.littleEndian width) := by
  refine (take hwidth).andThen (.take _) ?_
  intro c c' bytes hread buf c₁ _ _
  obtain ⟨front, -, -, hsettles⟩ := (Reader.Incremental.take _).exists_settles_of_read hread
  obtain ⟨hlength, rfl⟩ := Reader.settles_take_iff.mp hsettles
  simp only [hlength, le_refl, if_true, List.take_of_length_le]
  rfl

theorem count (e : Encoding) : Computes (count? e) (.count e) := by
  cases e with
  | fixed => exact littleEndian (by decide)
  | varint => exact base128

theorem length (e : Encoding) : Computes (length? e) (.length e) := by
  cases e with
  | fixed => exact littleEndian (by decide)
  | varint => exact base128

/-- A length that is read is a number that a word holds. -/
theorem field (e : Encoding) : Computes (field? e) (.field e) := by
  refine (length e).andThen (Reader.Composed.length e).advances ?_
  intro c c' n hread
  obtain ⟨front, -, -, hsettles⟩ :=
    (Reader.Composed.length e).incremental.exists_settles_of_read hread
  have hlimit : e.lengthLimit ≤ UInt64.size := by cases e <;> decide
  exact take ((Reader.settles_length_iff.mp hsettles).lt_lengthLimit.trans_le hlimit)

theorem map {w : WordReader α} {r : Reader α} (hw : Computes w r) (f : α → β) :
    Computes (w.map? f) (f <$> r) := by
  intro buf c hbuf hc
  have hread := hw buf c hbuf hc
  rw [map?, andThen?, hread, Cursor.read_map]
  rcases c.read r with ⟨fault | a, c'⟩ <;> rfl

end Computes

end WordReader

end ShardedRecords
