import ShardedRecords.Proofs.Wire.Grammar

/-!
# Streams that declare too much

A count in front of a message costs nothing, but each record behind it takes bytes. So the
bytes that are left bound what a stream can still yield, whatever was declared, and a count
above that bound is found out by a fault, which is the last thing that the stream yields.
-/
namespace ShardedRecords

variable {e : Encoding}

/-! ## What a record takes -/

theorem Encoding.SpellsLength.minRecordLength_le {bs : Bytes} {n : Nat} (h : e.SpellsLength bs n) :
    e.minRecordLength ≤ 2 * bs.length := by
  cases e with
  | fixed =>
    rw [h.2, LittleEndian.length_spell]
    exact Nat.le_refl 8
  | varint =>
    have hpos := h.spells.length_pos
    simp only [minRecordLength]
    omega

theorem SpelledRecord.Valid.minRecordLength_le {r : SpelledRecord} (h : r.Valid e) :
    e.minRecordLength ≤ r.bytes.length := by
  have hkey := Encoding.SpellsLength.minRecordLength_le h.key
  have hvalue := Encoding.SpellsLength.minRecordLength_le h.value
  simp only [SpelledRecord.bytes, SpelledField.bytes, List.length_append]
  omega

theorem Encoding.minRecordLength_pos (e : Encoding) : 0 < e.minRecordLength := by
  cases e <;> decide

/-- A read takes what it answers with from the front of the bytes that are left. -/
theorem Reader.Incremental.remaining_eq {α : Type} {r : Reader α} (hr : r.Incremental)
    {c c' : Cursor} {a : α} (h : c.read r = (.ok a, c')) :
    ∃ front, r.Settles front (.ok a) ∧ c.remaining = front.length + c'.remaining := by
  obtain ⟨front, hrest, -, hsettles⟩ := hr.exists_settles_of_read h
  refine ⟨front, hsettles, ?_⟩
  simp only [Cursor.remaining, hrest, List.length_append]

theorem Cursor.remaining_of_read_record {c c' : Cursor} {r : Record}
    (h : c.read (.record e) = (.ok r, c')) : c'.remaining + e.minRecordLength ≤ c.remaining := by
  obtain ⟨front, hsettles, hremaining⟩ := (Reader.Composed.record e).incremental.remaining_eq h
  obtain ⟨spelled, hvalid, rfl, -⟩ := Reader.settles_record_iff.mp hsettles
  have hmin := hvalid.minRecordLength_le
  omega

namespace RecordStream

variable {s s' : RecordStream} {r : Record} {f : WireError}

/-! ## What is still to come -/

/-- Records, and behind them the fault that takes the place of the next one, if there is one. -/
structure Remainder where
  records : List Record
  fault : Option WireError

def Remainder.items (r : Remainder) : List (Except WireError Record) :=
  r.records.map .ok ++ r.fault.toList.map .error

theorem Remainder.length_items (r : Remainder) :
    r.items.length = r.records.length + r.fault.toList.length := by
  simp only [items, List.length_append, List.length_map]

/-- All that a stream still yields. -/
def remainder (s : RecordStream) : Remainder :=
  match _ : s.next with
  | (none, _) => ⟨[], none⟩
  | (some (.ok r), s') => ⟨r :: s'.remainder.records, s'.remainder.fault⟩
  | (some (.error f), _) => ⟨[], some f⟩
termination_by s.left
decreasing_by all_goals exact left_lt_of_next ‹_›

theorem remainder_of_left_eq_zero (h : s.left = 0) : s.remainder = ⟨[], none⟩ := by
  rw [remainder, next_of_left_eq_zero h]

theorem remainder_of_next_record (h : s.next = (some (.ok r), s')) :
    s.remainder = ⟨r :: s'.remainder.records, s'.remainder.fault⟩ := by
  rw [remainder, h]

theorem remainder_of_next_fault (h : s.next = (some (.error f), s')) :
    s.remainder = ⟨[], some f⟩ := by
  rw [remainder, h]

/-- The calls answer with what is still to come, in order, and from then on with nothing. -/
theorem item_eq_getElem?_remainder (s : RecordStream) (i : Nat) :
    s.item i = s.remainder.items[i]? := by
  induction s using RecordStream.induction generalizing i with
  | ended s h =>
    rw [item_of_left_eq_zero h, remainder_of_left_eq_zero h]
    rfl
  | record s s' r h ih =>
    rw [remainder_of_next_record h]
    cases i with
    | zero => exact congrArg Prod.fst h
    | succ i =>
      rw [item_succ, h]
      exact ih i
  | fault s s' f h =>
    rw [remainder_of_next_fault h]
    cases i with
    | zero => exact congrArg Prod.fst h
    | succ i =>
      rw [item_succ, h]
      exact item_of_left_eq_zero (read_of_next_fault h).2.1 i

/-! ## What the bytes that are left allow -/

theorem length_items_le_left (s : RecordStream) : s.remainder.items.length ≤ s.left := by
  induction s using RecordStream.induction with
  | ended s h =>
    rw [remainder_of_left_eq_zero h]
    exact Nat.zero_le _
  | record s s' r h ih =>
    rw [remainder_of_next_record h, (read_of_next_record h).1]
    exact Nat.succ_le_succ ih
  | fault s s' f h =>
    rw [remainder_of_next_fault h]
    exact (read_of_next_fault h).1

/-- Without a fault all records that are left come. -/
theorem length_records_of_fault_eq_none (s : RecordStream) (hfault : s.remainder.fault = none) :
    s.remainder.records.length = s.left := by
  induction s using RecordStream.induction with
  | ended s h =>
    rw [remainder_of_left_eq_zero h, h]
    rfl
  | record s s' r h ih =>
    rw [remainder_of_next_record h] at hfault ⊢
    rw [(read_of_next_record h).1, ← ih hfault]
    rfl
  | fault s s' f h =>
    rw [remainder_of_next_fault h] at hfault
    cases hfault

theorem length_records_mul_le (s : RecordStream) :
    s.remainder.records.length * s.encoding.minRecordLength ≤ s.cursor.remaining := by
  induction s using RecordStream.induction with
  | ended s h =>
    rw [remainder_of_left_eq_zero h]
    simp
  | record s s' r h ih =>
    obtain ⟨-, hencoding, hread⟩ := read_of_next_record h
    have hbytes := Cursor.remaining_of_read_record hread
    rw [remainder_of_next_record h, List.length_cons, Nat.succ_mul, ← hencoding]
    rw [← hencoding] at hbytes
    omega
  | fault s s' f h =>
    rw [remainder_of_next_fault h]
    simp

theorem length_records_le_bound (s : RecordStream) : s.remainder.records.length ≤ s.bound := by
  have hleft := s.length_items_le_left
  rw [Remainder.length_items] at hleft
  unfold bound
  apply Nat.le_min.mpr
  constructor
  · omega
  · exact (Nat.le_div_iff_mul_le s.encoding.minRecordLength_pos).mpr s.length_records_mul_le

theorem bound_eq_left_of_fault_eq_none (h : s.remainder.fault = none) : s.bound = s.left := by
  have hle := s.length_records_le_bound
  rw [s.length_records_of_fault_eq_none h] at hle
  exact Nat.le_antisymm (Nat.min_le_left ..) hle

/-- Nothing comes any more, however often it is asked for. -/
structure Ended (s : RecordStream) : Prop where
  bound_eq_zero : s.bound = 0
  item_eq_none : ∀ i, s.item i = none
  skip_eq : ∀ n, s.skip n = s

theorem ended_of_left_eq_zero (h : s.left = 0) : s.Ended where
  bound_eq_zero := by rw [bound, h, Nat.zero_min]
  item_eq_none := item_of_left_eq_zero h
  skip_eq := skip_of_left_eq_zero h

/-- A record uses up one of those that could come, however many bytes it takes. -/
theorem bound_lt_of_next_record (h : s.next = (some (.ok r), s')) : s'.bound < s.bound := by
  obtain ⟨hleft, hencoding, hread⟩ := read_of_next_record h
  have hbytes := Cursor.remaining_of_read_record hread
  have hfit : s'.cursor.remaining / s.encoding.minRecordLength + 1 ≤
      s.cursor.remaining / s.encoding.minRecordLength := by
    rw [← Nat.add_div_right _ s.encoding.minRecordLength_pos]
    exact Nat.div_le_div_right hbytes
  unfold bound
  rw [hencoding, hleft]
  omega

/-- As long as no fault has come, what is left of the count is what was not yet yielded. -/
theorem left_skip {n : Nat} (s : RecordStream) (h : ∀ i < n, ∀ f, s.item i ≠ some (.error f)) :
    (s.skip n).left + (s.remainder.records.take n).length = s.left := by
  induction s using RecordStream.induction generalizing n with
  | ended s hleft =>
    rw [skip_of_left_eq_zero hleft, remainder_of_left_eq_zero hleft]
    simp
  | record s s' r hnext ih =>
    cases n with
    | zero => simp [skip]
    | succ n =>
      have hlater : ∀ i < n, ∀ f, s'.item i ≠ some (.error f) := by
        intro i hi
        simpa only [item_succ, hnext] using h (i + 1) (Nat.succ_lt_succ hi)
      have hrest := ih hlater
      have hleft := (read_of_next_record hnext).1
      simp only [skip, hnext, remainder_of_next_record hnext, List.take_succ_cons,
        List.length_cons]
      omega
  | fault s s' f hnext =>
    cases n with
    | zero => simp [skip]
    | succ n => exact absurd (congrArg Prod.fst hnext) (h 0 (Nat.succ_pos n) f)

theorem ofBytes_eq_ok {buf : Bytes} (h : ofBytes e buf = .ok s) :
    s.encoding = e ∧ s.left = s.declared ∧ s.cursor.remaining ≤ buf.length := by
  unfold ofBytes at h
  split at h
  · rename_i n c hread
    obtain ⟨front, -, hremaining⟩ := (Reader.Composed.count e).incremental.remaining_eq hread
    have hbuf : (Cursor.ofBytes buf).remaining = buf.length := rfl
    cases h
    exact ⟨rfl, rfl, by simp only; omega⟩
  · cases h

/-- No more records come than the stream says could come, and without a fault exactly as
many, which are then all that are left. Each record makes the bound smaller, and a fault is
the last thing that comes. -/
structure Bounded (s : RecordStream) : Prop where
  item_eq : ∀ i, s.item i = s.remainder.items[i]?
  length_records_le : s.remainder.records.length ≤ s.bound
  of_fault_eq_none : s.remainder.fault = none →
    s.remainder.records.length = s.bound ∧ s.remainder.records.length = s.left
  of_next_record : ∀ r s', s.next = (some (.ok r), s') → s'.bound < s.bound
  of_next_fault : ∀ f s', s.next = (some (.error f), s') → s'.Ended
  of_next_none : s.next.1 = none → s.Ended

theorem bounded (s : RecordStream) : s.Bounded := by
  constructor
  · exact item_eq_getElem?_remainder s
  · exact s.length_records_le_bound
  · intro hfault
    rw [bound_eq_left_of_fault_eq_none hfault]
    exact ⟨s.length_records_of_fault_eq_none hfault, s.length_records_of_fault_eq_none hfault⟩
  · intro r s' hnext
    exact bound_lt_of_next_record hnext
  · intro f s' hnext
    exact ended_of_left_eq_zero (read_of_next_fault hnext).2.1
  · intro hnext
    exact ended_of_left_eq_zero (left_of_next_none (Prod.ext hnext rfl))

end RecordStream

/-- Wherever a stream stands it is bounded by its bytes, and as long as no fault has come,
what is left of the count are the records that did not yet come. So the bytes of the buffer
bound all that comes, whatever was declared, and a count that is above the bound at the start
leads to a fault. -/
theorem declared_count_bounded {e : Encoding} {buf : Bytes} {s₀ : RecordStream}
    (h : RecordStream.ofBytes e buf = .ok s₀) :
    (∀ n, (s₀.skip n).Bounded ∧
      ((∀ i < n, ∀ f, s₀.item i ≠ some (.error f)) →
        (s₀.skip n).left + (s₀.remainder.records.take n).length = s₀.declared)) ∧
    s₀.remainder.items.length ≤ min s₀.declared (s₀.bound + 1) ∧
    (s₀.bound < s₀.declared → ∃ f, s₀.remainder.fault = some f) ∧
    s₀.bound * e.minRecordLength ≤ buf.length := by
  obtain ⟨rfl, hdeclared, hbuf⟩ := RecordStream.ofBytes_eq_ok h
  refine ⟨?_, ?_, ?_, ?_⟩
  · intro n
    rw [← hdeclared]
    exact ⟨(s₀.skip n).bounded, s₀.left_skip⟩
  · have hitems := s₀.length_items_le_left
    have hrecords := s₀.length_records_le_bound
    have hfault := Option.length_toList_le (o := s₀.remainder.fault)
    rw [RecordStream.Remainder.length_items] at hitems ⊢
    omega
  · intro hlt
    apply Option.ne_none_iff_exists'.mp
    intro hfault
    have hbound := RecordStream.bound_eq_left_of_fault_eq_none hfault
    omega
  · calc s₀.bound * s₀.encoding.minRecordLength
        ≤ s₀.cursor.remaining / s₀.encoding.minRecordLength * s₀.encoding.minRecordLength :=
          Nat.mul_le_mul_right _ (Nat.min_le_right ..)
      _ ≤ s₀.cursor.remaining := Nat.div_mul_le_self ..
      _ ≤ buf.length := hbuf

/-- The greatest count that there is, in front of a record and half of another one. -/
theorem declared_count_bounded_inflated :
    let count : Bytes := List.replicate 8 255
    ∃ s, RecordStream.ofBytes .fixed (count ++ List.replicate 12 0) = .ok s ∧
      s.declared = 2 ^ 64 - 1 ∧ s.bound = 1 ∧ s.remainder.items.length ≤ 2 ∧
      ∃ f, s.remainder.fault = some f := by
  intro count
  have h : RecordStream.ofBytes .fixed (count ++ List.replicate 12 0) =
      .ok ⟨.fixed, 2 ^ 64 - 1, 2 ^ 64 - 1, ⟨8, List.replicate 12 0⟩⟩ := by decide +kernel
  obtain ⟨-, hitems, hfault, -⟩ := declared_count_bounded h
  exact ⟨_, h, rfl, rfl, hitems, hfault (by decide +kernel)⟩

end ShardedRecords
