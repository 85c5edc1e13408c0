import ShardedRecords.Proofs.Base128
import ShardedRecords.Wire.RecordStream

/-!
# Readers and the bytes that settle them

Bytes settle a read if it gives one answer whatever stands behind them, and stops
at their end. Every read of a message is incremental: a front of the input
settles it, or the answer is that the input is truncated. So no answer of
another kind is revised when the input grows, and each of them needs all of the
bytes that it has consumed.
-/
namespace ShardedRecords

variable {α β : Type}

/-- The answer that bytes are missing, wherever and however many. -/
def Truncated (answer : Except WireError α) : Prop :=
  ∃ offset needed remaining, answer = .error (.truncated offset needed remaining)

theorem not_truncated_ok (a : α) : ¬Truncated (.ok a : Except WireError α) := by
  rintro ⟨_, _, _, h⟩
  cases h

theorem truncated_error_iff {fault : WireError} :
    Truncated (.error fault : Except WireError α) ↔
      ∃ offset needed remaining, fault = .truncated offset needed remaining := by
  simp [Truncated]

theorem truncated_map_iff {answer : Except WireError α} {f : α → β} :
    Truncated (answer.map f) ↔ Truncated answer := by
  cases answer <;> simp [Truncated, Except.map]

namespace Reader

def Settles (r : Reader α) (bs : Bytes) (answer : Except WireError α) : Prop :=
  ∀ pos rest, (Cursor.mk pos (bs ++ rest)).read r = (answer, ⟨pos + bs.length, rest⟩)

namespace Settles

variable {r : Reader α} {bs bs' : Bytes} {a : α}

theorem pure (a : α) : Settles (Pure.pure a) [] (.ok a) := fun _ _ => rfl

theorem bind {f : α → Reader β} {answer : Except WireError β} (hr : r.Settles bs (.ok a))
    (hf : (f a).Settles bs' answer) : (r >>= f).Settles (bs ++ bs') answer := by
  intro pos rest
  rw [Cursor.read_bind, List.append_assoc, hr pos]
  simp only [hf (pos + bs.length), List.length_append, Nat.add_assoc]

theorem bind_error {f : α → Reader β} {fault : WireError} (hr : r.Settles bs (.error fault)) :
    (r >>= f).Settles bs (.error fault) := by
  intro pos rest
  rw [Cursor.read_bind, hr pos]

/-- A last step that only computes its answer reads nothing more. -/
theorem map {f : α → β} (hr : r.Settles bs (.ok a)) :
    (r >>= fun a => Pure.pure (f a)).Settles bs (.ok (f a)) := by
  simpa using hr.bind (f := fun a => Pure.pure (f a)) (pure (f a))

theorem take (bs : Bytes) : (Reader.take bs.length).Settles bs (.ok bs) := by
  intro pos rest
  rw [Cursor.read_take, Bytes.cut?_append]

theorem littleEndian (bs : Bytes) :
    (Reader.littleEndian bs.length).Settles bs (.ok (LittleEndian.value bs)) :=
  (take bs).map

theorem littleEndian_spell {width n : Nat} (hn : n < LittleEndian.capacity width) :
    (Reader.littleEndian width).Settles (LittleEndian.spell width n) (.ok n) := by
  simpa [LittleEndian.value_spell_of_lt hn] using littleEndian (LittleEndian.spell width n)

theorem base128 {n : Nat} (h : Base128.SpellsWord bs n) : Reader.base128.Settles bs (.ok n) := by
  intro pos rest
  rw [Cursor.read_base128, h.scan_append]

/-- What one answer is settled by in front of a buffer, no other answer and no other
front of it is. -/
theorem unique {answer answer' : Except WireError α} {rest rest' : Bytes}
    (h : r.Settles bs answer) (h' : r.Settles bs' answer') (heq : bs ++ rest = bs' ++ rest') :
    answer = answer' ∧ bs = bs' ∧ rest = rest' := by
  have hread := h 0 rest
  rw [heq, h' 0 rest'] at hread
  obtain ⟨hanswer, hcursor⟩ := Prod.mk.inj hread
  have hrest : rest' = rest := congrArg Cursor.rest hcursor
  subst hrest
  exact ⟨hanswer.symm, List.append_cancel_right heq, rfl⟩

end Settles

/-- A reader made of the two reads that look at bytes, of which fixed widths need only the
first. -/
inductive Composed (e : Encoding) : {α : Type} → Reader α → Prop
  | pure {α : Type} (a : α) : Composed e (Pure.pure a)
  | bind {α β : Type} {r : Reader α} {f : α → Reader β} (hr : Composed e r)
      (hf : ∀ a, Composed e (f a)) : Composed e (r >>= f)
  | take (n : Nat) : Composed e (Reader.take n)
  | base128 (he : e = .varint) : Composed e Reader.base128

namespace Composed

theorem littleEndian (e : Encoding) (width : Nat) : Composed e (Reader.littleEndian width) :=
  (take width).bind fun _ => pure _

theorem count (e : Encoding) : Composed e (Reader.count e) := by
  cases e with
  | fixed => exact littleEndian .fixed 8
  | varint => exact base128 rfl

theorem length (e : Encoding) : Composed e (Reader.length e) := by
  cases e with
  | fixed => exact littleEndian .fixed 4
  | varint => exact base128 rfl

theorem field (e : Encoding) : Composed e (Reader.field e) := (length e).bind take

theorem record (e : Encoding) : Composed e (Reader.record e) :=
  (field e).bind fun _ => (field e).bind fun _ => pure _

theorem records (e : Encoding) (n : Nat) : Composed e (Reader.records e n) := by
  induction n with
  | zero => exact pure []
  | succ n ih => exact (record e).bind fun _ => ih.bind fun _ => pure _

theorem message (e : Encoding) : Composed e (Reader.message e) := (count e).bind (records e)

end Composed

/-- A reader that asks for more bytes only as long as these can make a difference. -/
def Incremental (r : Reader α) : Prop :=
  ∀ bs, (∃ front rest answer, bs = front ++ rest ∧ ¬Truncated answer ∧ r.Settles front answer) ∨
    ∀ pos, Truncated ((Cursor.mk pos bs).read r).1

namespace Incremental

variable {r : Reader α}

theorem pure (a : α) : Incremental (Pure.pure a) :=
  fun bs => .inl ⟨[], bs, .ok a, rfl, not_truncated_ok a, .pure a⟩

theorem bind {f : α → Reader β} (hr : r.Incremental) (hf : ∀ a, (f a).Incremental) :
    (r >>= f).Incremental := by
  intro bs
  rcases hr bs with ⟨front, rest, answer, rfl, hnt, hs⟩ | ht
  · cases answer with
    | error fault =>
      refine .inl ⟨front, rest, .error fault, rfl, ?_, hs.bind_error⟩
      rwa [truncated_error_iff] at hnt ⊢
    | ok a =>
      rcases hf a rest with ⟨front', rest', answer', rfl, hnt', hs'⟩ | ht
      · exact .inl ⟨front ++ front', rest', answer', by rw [List.append_assoc], hnt', hs.bind hs'⟩
      · refine .inr fun pos => ?_
        rw [Cursor.read_bind, hs pos]
        exact ht (pos + front.length)
  · refine .inr fun pos => ?_
    obtain ⟨offset, needed, remaining, h⟩ := ht pos
    refine ⟨offset, needed, remaining, ?_⟩
    rw [Cursor.read_bind]
    generalize (Cursor.mk pos bs).read r = read at h ⊢
    obtain ⟨answer, c⟩ := read
    cases h
    rfl

theorem take (n : Nat) : (Reader.take n).Incremental := by
  intro bs
  by_cases h : n ≤ bs.length
  · have hn : (bs.take n).length = n := List.length_take_of_le h
    refine .inl ⟨bs.take n, bs.drop n, .ok (bs.take n), (List.take_append_drop n bs).symm,
      not_truncated_ok _, ?_⟩
    simpa only [hn] using Settles.take (bs.take n)
  · refine .inr fun pos => ⟨pos, n, bs.length, ?_⟩
    rw [Cursor.read_take, Bytes.cut?_eq_none_iff.mpr (by simpa using h)]
    rfl

theorem base128 : Reader.base128.Incremental := by
  intro bs
  by_cases h : (Base128.scan bs).outcome = .cut
  · refine .inr fun pos => ⟨pos, bs.length + 1, bs.length, ?_⟩
    rw [Cursor.read_base128, h]
    rfl
  · obtain ⟨front, hbs, hscan⟩ := Base128.scan_eq_of_ne_cut h
    cases ho : (Base128.scan bs).outcome with
    | value n =>
      refine .inl ⟨front, _, .ok n, hbs, not_truncated_ok n, fun pos rest => ?_⟩
      rw [Cursor.read_base128, hscan, ho]
    | overflow n =>
      refine .inl ⟨front, _, .error (.lengthOverflow .varint n), hbs, ?_, fun pos rest => ?_⟩
      · simp [truncated_error_iff]
      · rw [Cursor.read_base128, hscan, ho]
    | cut => exact absurd ho h

/-- What was read stands in front of what is left, and settles the read. -/
theorem exists_settles (hr : r.Incremental) {c : Cursor} (h : ¬Truncated (c.read r).1) :
    ∃ front, c.rest = front ++ (c.read r).2.rest ∧ (c.read r).2.pos = c.pos + front.length ∧
      r.Settles front (c.read r).1 := by
  obtain ⟨pos, bs⟩ := c
  rcases hr bs with ⟨front, rest, answer, rfl, -, hs⟩ | ht
  · rw [hs pos]
    exact ⟨front, rfl, rfl, hs⟩
  · exact absurd (ht pos) h

theorem exists_settles_of_read (hr : r.Incremental) {c c' : Cursor} {a : α}
    (h : c.read r = (.ok a, c')) : ∃ front, c.rest = front ++ c'.rest ∧
      c'.pos = c.pos + front.length ∧ r.Settles front (.ok a) := by
  have hsettles := hr.exists_settles (c := c) (h ▸ not_truncated_ok a)
  rwa [h] at hsettles

/-- Bytes that a read consumes whole settle it. -/
theorem settles_of_read (hr : r.Incremental) {bs : Bytes} {a : α} {pos pos' : Nat}
    (h : (Cursor.mk pos bs).read r = (.ok a, ⟨pos', []⟩)) : r.Settles bs (.ok a) := by
  obtain ⟨front, hbs, -, hs⟩ := hr.exists_settles_of_read h
  rwa [show bs = front by simpa using hbs]

theorem settles_bind_iff {f : α → Reader β} (hr : r.Incremental) (hf : ∀ a, (f a).Incremental)
    {bs : Bytes} {b : β} : (r >>= f).Settles bs (.ok b) ↔
      ∃ a front back, bs = front ++ back ∧ r.Settles front (.ok a) ∧
        (f a).Settles back (.ok b) := by
  constructor
  · intro h
    have hread := h 0 []
    rw [List.append_nil, Cursor.read_bind] at hread
    cases hfirst : (Cursor.mk 0 bs).read r with
    | mk answer c => cases answer with
      | error fault =>
        rw [hfirst] at hread
        cases hread
      | ok a =>
        rw [hfirst] at hread
        obtain ⟨front, hbs, -, hs⟩ := hr.exists_settles (c := ⟨0, bs⟩) (hfirst ▸ not_truncated_ok a)
        rw [hfirst] at hbs hs
        exact ⟨a, front, c.rest, hbs, hs, (hf a).settles_of_read hread⟩
  · rintro ⟨a, front, back, rfl, hs, hs'⟩
    exact hs.bind hs'

/-- Nothing less than all of the bytes that a read consumes is enough for it. -/
theorem truncated_of_take (hr : r.Incremental) {front : Bytes} {answer : Except WireError α}
    (hs : r.Settles front answer) {n : Nat} (hn : n < front.length) (pos : Nat) :
    Truncated ((Cursor.mk pos (front.take n)).read r).1 := by
  refine Classical.byContradiction fun h => ?_
  obtain ⟨front', htake, -, hs'⟩ := hr.exists_settles h
  have hlen : front'.length ≤ n := by
    have := congrArg List.length htake
    simp only [List.length_append, List.length_take] at this
    omega
  -- read as what follows the shorter front, the rest of the longer one would be left over
  have hsplit : front = front' ++ (((Cursor.mk pos (front.take n)).read r).2.rest ++
      front.drop n) := by
    rw [← List.append_assoc, ← htake, List.take_append_drop]
  have hpos : pos + front'.length = pos + front.length := by
    have h₁ := hs pos []
    rw [List.append_nil, hsplit, hs' pos, ← hsplit] at h₁
    exact congrArg (fun read => read.2.pos) h₁
  omega

end Incremental

theorem Composed.incremental {e : Encoding} {r : Reader α} (h : Composed e r) : r.Incremental := by
  induction h with
  | pure a => exact .pure a
  | bind _ _ hr hf => exact hr.bind hf
  | take n => exact .take n
  | base128 => exact .base128

end Reader

end ShardedRecords
