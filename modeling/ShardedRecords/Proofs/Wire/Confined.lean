import ShardedRecords.Proofs.Base128.Offsets
import ShardedRecords.Proofs.Wire.Faults
import ShardedRecords.Proofs.Wire.MissingBytes

/-!
# Reads inside a buffer

No read leaves its buffer, whether it fails or not: the cursor moves forward by some of the
bytes that were left. Where in a buffer it is read changes nothing but the offsets.
-/
namespace ShardedRecords

variable {α β : Type}

theorem Base128.rest_scanFrom (digits : Nat) (bs : Bytes) :
    (scanFrom digits bs).rest = bs.drop (scanFrom digits bs).width := by
  fun_induction scanFrom digits bs with
  | case1 => rfl
  | case2 => rfl
  | case3 => rfl
  | case4 digits b rest _ _ _ tail ih => exact ih

/-! ## Cursors -/

namespace Cursor

/-- The cursor stands in the buffer or at its end, and all bytes from there on are left. -/
structure Within (buf : Bytes) (c : Cursor) : Prop where
  pos_le : c.pos ≤ buf.length
  rest_eq : c.rest = buf.drop c.pos

theorem within_ofBytes (buf : Bytes) : (ofBytes buf).Within buf := ⟨Nat.zero_le _, rfl⟩

theorem Within.pos_add_remaining {buf : Bytes} {c : Cursor} (h : c.Within buf) :
    c.pos + c.remaining = buf.length := by
  rw [remaining, h.rest_eq, List.length_drop]
  exact Nat.add_sub_of_le h.pos_le

/-- The same cursor with `p` more bytes in front of it. -/
def shift (p : Nat) (c : Cursor) : Cursor := ⟨p + c.pos, c.rest⟩

end Cursor

/-- The same fault with `p` more bytes in front. -/
def WireError.shift (p : Nat) : WireError → WireError
  | .truncated offset needed remaining => .truncated (p + offset) needed remaining
  | .lengthOverflow encoding length => .lengthOverflow encoding length
  | .notBytes index part => .notBytes index part

namespace Reader

variable {e : Encoding} {r : Reader α} {f : α → Reader β}

/-! ## Moving forward -/

/-- The read takes some of the bytes that are left, and leaves the others. -/
def Advances (r : Reader α) : Prop :=
  ∀ c : Cursor, ∃ n ≤ c.remaining, (c.read r).2 = ⟨c.pos + n, c.rest.drop n⟩

namespace Advances

theorem pure (a : α) : Advances (Pure.pure a) := fun _ => ⟨0, Nat.zero_le _, rfl⟩

theorem bind (hr : r.Advances) (hf : ∀ a, (f a).Advances) : (r >>= f).Advances := by
  intro c
  obtain ⟨n, hn, hc⟩ := hr c
  rw [Cursor.read_bind]
  rcases hread : c.read r with ⟨fault | a, c'⟩
  · rw [hread] at hc
    exact ⟨n, hn, hc⟩
  · rw [hread] at hc
    obtain rfl : c' = ⟨c.pos + n, c.rest.drop n⟩ := hc
    obtain ⟨m, hm, hc'⟩ := hf a ⟨c.pos + n, c.rest.drop n⟩
    refine ⟨n + m, ?_, ?_⟩
    · simp only [Cursor.remaining, List.length_drop] at hn hm ⊢
      omega
    · rw [hc', List.drop_drop, Nat.add_assoc]

theorem take (n : Nat) : (Reader.take n).Advances := by
  intro c
  rw [Cursor.read_take, Bytes.cut?_eq]
  by_cases h : n ≤ c.rest.length
  · rw [if_pos h]
    exact ⟨n, h, rfl⟩
  · rw [if_neg h]
    exact ⟨0, Nat.zero_le _, rfl⟩

theorem base128 : Reader.base128.Advances := by
  intro c
  refine ⟨(Base128.scan c.rest).width, ?_, ?_⟩
  · rw [Cursor.remaining, ← Base128.scanFrom_width_add_length 0 c.rest]
    exact Nat.le_add_right ..
  · rw [Cursor.read_base128, Base128.scan, ← Base128.rest_scanFrom]

end Advances

theorem Composed.advances (h : Composed e r) : r.Advances := by
  induction h with
  | pure a => exact .pure a
  | bind _ _ hr hf => exact hr.bind hf
  | take n => exact .take n
  | base128 => exact .base128

theorem Advances.within (hr : r.Advances) {buf : Bytes} {c : Cursor} (h : c.Within buf) :
    (c.read r).2.Within buf ∧ c.pos ≤ (c.read r).2.pos := by
  obtain ⟨n, hn, hc⟩ := hr c
  have hstop := h.pos_add_remaining
  rw [hc]
  refine ⟨⟨?_, ?_⟩, Nat.le_add_right ..⟩
  · simp only
    omega
  · rw [h.rest_eq, List.drop_drop]

/-! ## Reading elsewhere -/

/-- With more bytes in front the read is the same, up to the offsets. -/
def Shifts (r : Reader α) : Prop :=
  ∀ p c, (Cursor.shift p c).read r = ((c.read r).1.mapError (·.shift p), (c.read r).2.shift p)

namespace Shifts

theorem pure (a : α) : Shifts (Pure.pure a) := fun _ _ => rfl

theorem bind (hr : r.Shifts) (hf : ∀ a, (f a).Shifts) : (r >>= f).Shifts := by
  intro p c
  rw [Cursor.read_bind, Cursor.read_bind, hr p c]
  rcases c.read r with ⟨fault | a, c'⟩
  · rfl
  · exact hf a p c'

theorem take (n : Nat) : (Reader.take n).Shifts := by
  intro p c
  rw [Cursor.read_take, Cursor.read_take, Cursor.shift]
  cases Bytes.cut? n c.rest with
  | none => rfl
  | some cut => simp [Except.mapError, Cursor.shift, Nat.add_assoc]

theorem base128 : Reader.base128.Shifts := by
  intro p c
  rw [Cursor.read_base128, Cursor.read_base128, Cursor.shift]
  cases (Base128.scan c.rest).outcome <;>
    simp [Except.mapError, Cursor.shift, WireError.shift, Cursor.remaining, Nat.add_assoc]

end Shifts

theorem Composed.shifts (h : Composed e r) : r.Shifts := by
  induction h with
  | pure a => exact .pure a
  | bind _ _ hr hf => exact hr.bind hf
  | take n => exact .take n
  | base128 => exact .base128

/-- A read at some position is the read of what is left, as a buffer of its own. -/
theorem Shifts.read_eq (hr : r.Shifts) {buf : Bytes} {c : Cursor} (h : c.Within buf) :
    c.read r = (((Cursor.ofBytes (buf.drop c.pos)).read r).1.mapError (·.shift c.pos),
      ((Cursor.ofBytes (buf.drop c.pos)).read r).2.shift c.pos) := by
  have hc : c = (Cursor.ofBytes (buf.drop c.pos)).shift c.pos := by
    rw [← h.rest_eq]
    rfl
  exact (congrArg (·.read r) hc).trans (hr _ _)

/-! ## Where a failed read stops -/

/-- A read that fails leaves the cursor where it was. -/
def Stays (r : Reader α) : Prop :=
  ∀ (c : Cursor) fault, (c.read r).1 = .error fault → (c.read r).2 = c

namespace Stays

theorem take (n : Nat) : (Reader.take n).Stays := by
  intro c fault h
  rw [Cursor.read_take] at h ⊢
  cases hcut : Bytes.cut? n c.rest with
  | none => rfl
  | some cut =>
    rw [hcut] at h
    cases h

theorem map (hr : r.Stays) (f : α → β) : (f <$> r).Stays := by
  intro c fault h
  rw [Cursor.read_map] at h ⊢
  exact hr c fault (Except.map_eq_error.mp h)

theorem littleEndian (width : Nat) : (Reader.littleEndian width).Stays := by
  rw [Reader.littleEndian, bind_pure_comp]
  exact (take width).map _

end Stays

/-- A number in base 128 that is cut off has used up all the bytes. -/
theorem read_base128_of_truncated {c : Cursor} (h : Truncated (c.read base128).1) :
    (c.read base128).2 = ⟨c.pos + c.remaining, []⟩ := by
  obtain ⟨offset, needed, remaining, h⟩ := h
  obtain ⟨-, -, hcut⟩ := of_base128_truncated h
  have hscan : Base128.scan c.rest = ⟨.cut, c.remaining, []⟩ := Base128.scanFrom_of_cut hcut
  rw [Cursor.read_base128, hscan]

/-- A field whose bytes are missing has read its length. -/
theorem read_field_of_missing {c c' : Cursor} {n : Nat} (hlength : c.read (length e) = (.ok n, c'))
    (hmissing : c'.remaining < n) :
    c.read (field e) = (.error (.truncated c'.pos n c'.remaining), c') := by
  rw [field, Cursor.read_bind, hlength]
  simp only [Cursor.read_take, Bytes.cut?_eq_none_iff.mpr hmissing]

end Reader

end ShardedRecords
