import ShardedRecords.Proofs.Wire.Sizing
import ShardedRecords.Wire.ReadScript

/-!
# Who is at fault on the wire

Reading can only fail by the bytes that are read: they are cut off or, in base 128, spell
too large a number. Writing can only fail by what the caller wants written, as long as
the message is not too large as a whole.
-/
namespace ShardedRecords

/-- The bytes end too early, or a number in base 128 does not fit in 64 bits. -/
inductive WireError.OfReading : Encoding → WireError → Prop
  | truncated (e : Encoding) (offset needed remaining : Nat) :
      OfReading e (.truncated offset needed remaining)
  | overflow (n : Nat) : OfReading .varint (.lengthOverflow .varint n)

theorem WireError.OfReading.isCallerBug_eq_false {e : Encoding} {f : WireError}
    (h : f.OfReading e) : f.isCallerBug = false := by
  cases h <;> rfl

theorem WireError.OfReading.exists_truncated {f : WireError} (h : f.OfReading .fixed) :
    ∃ offset needed remaining, f = .truncated offset needed remaining := by
  cases h with
  | truncated _ offset needed remaining => exact ⟨offset, needed, remaining, rfl⟩

/-! ## Reading -/

theorem Cursor.read_map {α β : Type} (c : Cursor) (f : α → β) (r : Reader α) :
    c.read (f <$> r) = ((c.read r).1.map f, (c.read r).2) := by
  rw [← bind_pure_comp, Cursor.read_bind]
  rcases c.read r with ⟨fault | a, c'⟩ <;> rfl

namespace Reader

variable {α β : Type} {e : Encoding}

/-- Wherever the read fails, it is by the bytes. -/
def FailsByBytes (e : Encoding) (r : Reader α) : Prop :=
  ∀ (c : Cursor) f, (c.read r).1 = .error f → f.OfReading e

namespace FailsByBytes

theorem pure (a : α) : FailsByBytes e (Pure.pure a) := fun _ _ h => nomatch h

theorem bind {r : Reader α} {f : α → Reader β} (hr : FailsByBytes e r)
    (hf : ∀ a, FailsByBytes e (f a)) : FailsByBytes e (r >>= f) := by
  intro c fault h
  rcases Cursor.read_bind_eq_error.mp h with h | ⟨a, c', -, h⟩
  · exact hr c fault h
  · exact hf a c' fault h

theorem map {r : Reader α} (hr : FailsByBytes e r) (f : α → β) : FailsByBytes e (f <$> r) := by
  intro c fault h
  rw [Cursor.read_map] at h
  exact hr c fault (Except.map_eq_error.mp h)

theorem take (n : Nat) : FailsByBytes e (Reader.take n) := by
  intro c f h
  rw [Cursor.read_take] at h
  split at h
  · cases h
  · cases h
    exact .truncated ..

theorem base128 : FailsByBytes .varint Reader.base128 := by
  intro c f h
  rw [Cursor.read_base128] at h
  split at h
  · cases h
  · cases h
    exact .overflow _
  · cases h
    exact .truncated ..

end FailsByBytes

theorem Composed.failsByBytes {r : Reader α} (h : Composed e r) : FailsByBytes e r := by
  induction h with
  | pure a => exact .pure a
  | bind _ _ hr hf => exact hr.bind hf
  | take n => exact .take n
  | base128 he => exact he ▸ .base128

end Reader

theorem ReadState.ofReading_of_step {s : ReadState} {op : ReadStep} {f : WireError}
    (h : (s.step op).1 = .error f) : ∃ e, f.OfReading e := by
  cases op with
  | take n => exact ⟨.fixed, (Reader.FailsByBytes.take n).map _ s.cursor f h⟩
  | u32 => exact ⟨.fixed, (Reader.Composed.littleEndian .fixed 4).failsByBytes.map _ s.cursor f h⟩
  | u64 => exact ⟨.fixed, (Reader.Composed.littleEndian .fixed 8).failsByBytes.map _ s.cursor f h⟩
  | base128 => exact ⟨.varint, Reader.FailsByBytes.base128.map _ s.cursor f h⟩
  | count e => exact ⟨e, (Reader.Composed.count e).failsByBytes.map _ s.cursor f h⟩
  | length e => exact ⟨e, (Reader.Composed.length e).failsByBytes.map _ s.cursor f h⟩
  | field e => exact ⟨e, (Reader.Composed.field e).failsByBytes.map _ s.cursor f h⟩
  | save => cases h
  | restore => cases h

theorem RecordStream.ofReading_of_ofBytes {e : Encoding} {buf : Bytes} {f : WireError}
    (h : ofBytes e buf = .error f) : f.OfReading e := by
  unfold ofBytes at h
  rcases hread : (Cursor.ofBytes buf).read (.count e) with ⟨fault | n, c⟩
  · rw [hread] at h
    cases h
    exact (Reader.Composed.count e).failsByBytes _ f (congrArg Prod.fst hread)
  · simp [hread] at h

theorem RecordStream.ofReading_of_next {s : RecordStream} {f : WireError}
    (h : s.next.1 = some (.error f)) : f.OfReading s.encoding := by
  obtain ⟨-, -, hread⟩ := read_of_next_fault (Prod.ext h rfl)
  exact (Reader.Composed.record s.encoding).failsByBytes _ f (congrArg Prod.fst hread)

theorem ofReading_of_decodeInto {σ : Type} [Sink σ] {e : Encoding} {buf : Bytes} {f : WireError}
    (h : decodeInto σ e buf = .error f) : f.OfReading e := by
  exact (Reader.Composed.message e).failsByBytes _ f (decodeInto_eq_error_iff.mp h)

/-! ## Writing -/

namespace Plan

variable {α β : Type} [HasBytes α] [HasBytes β] {e : Encoding} {f : WireError}

theorem Refused.isCallerBug {index : Nat} {entry : Option Bytes × Option Bytes}
    (h : Refused index e entry f) : f.isCallerBug = true := by
  cases h <;> rfl

/-- Only the fault that the size is none of 64 bits is not the caller's in base 128. -/
theorem isCallerBug_of_ofEntriesFrom {index total : Nat} {entries : List (α × β)}
    (hsize : total + e.entriesSize entries < UInt64.size)
    (h : ofEntriesFrom e index total entries = .error f) : f.isCallerBug = true := by
  rw [ofEntriesFrom_eq_mapM hsize, Except.map_eq_error, Except.mapM_eq_error_iff] at h
  obtain ⟨_, _, _, _, _, hentry⟩ := h
  exact (entry_eq_error_iff.mp hentry).isCallerBug

end Plan

end ShardedRecords
