import ShardedRecords.Proofs.Base128.Offsets
import ShardedRecords.Proofs.Base128.Shortest
import ShardedRecords.Proofs.Base128.Words
import ShardedRecords.Proofs.Wire.Grammar

/-!
# Numbers in a buffer

What a read of a number in base 128 answers at any offset of any buffer, and where it
stops. What was written is read back in any surroundings, and everything else that is read
as the same number is longer.
-/
namespace ShardedRecords

open Base128

/-! ## Any bytes -/

namespace Cursor

variable {buf : Bytes} {start k n : Nat}

theorem read_base128_eq_ok_iff : ((ofBytesAt buf start).read .base128).1 = .ok n ↔
    ∃ k ≤ 9, SpelledAt buf start k n := by
  have hscan := scan_eq_value_iff (buf.drop start) (n := n)
  simp only [spelledAt_drop] at hscan
  rw [← hscan, Words.read_base128_fst, ofBytesAt]
  cases (scan (buf.drop start)).outcome <;> simp [Words.answer]

theorem read_base128_of_spelledAt (hk : k ≤ 9) (h : SpelledAt buf start k n) :
    (ofBytesAt buf start).read .base128 =
      (.ok n, ⟨start + k + 1, buf.drop (start + k + 1)⟩) := by
  rw [← spelledAt_drop] at h
  rw [read_base128, ofBytesAt, scan_of_spelledAt hk h, List.drop_drop]
  rfl

theorem read_base128_eq_overflow_iff :
    ((ofBytesAt buf start).read .base128).1 = .error (.lengthOverflow .varint n) ↔
      OverflowsAt buf start ∧
        n = valueAt buf start (if 1 < digitAt buf (start + 9) then 9 else 10) := by
  have hscan := scan_eq_overflow_iff (buf.drop start) (n := n)
  rw [overflowsAt_drop, digitAt_drop, valueAt_drop] at hscan
  rw [← hscan, Words.read_base128_fst, ofBytesAt]
  cases (scan (buf.drop start)).outcome <;> simp [Words.answer]

theorem read_base128_of_neither (hspelled : ¬∃ k ≤ 9, ∃ n, SpelledAt buf start k n)
    (hoverflows : ¬OverflowsAt buf start) :
    (ofBytesAt buf start).read .base128 =
      (.error (.truncated start (buf.length - start + 1) (buf.length - start)),
        ⟨max start buf.length, []⟩) := by
  cases houtcome : (scan (buf.drop start)).outcome with
  | value n =>
    obtain ⟨k, hk, h⟩ := (scan_eq_value_iff _).mp houtcome
    exact absurd ⟨k, hk, n, (spelledAt_drop ..).mp h⟩ hspelled
  | overflow n =>
    have h := ((scan_eq_overflow_iff _).mp houtcome).1
    exact absurd ((overflowsAt_drop ..).mp h) hoverflows
  | cut =>
    have hscan : scan (buf.drop start) = ⟨.cut, buf.length - start, []⟩ := by
      rw [← List.length_drop]
      exact scanFrom_of_cut houtcome
    have hstop : start + (buf.length - start) = max start buf.length := by omega
    rw [read_base128, ofBytesAt, hscan]
    simp only [remaining, List.length_drop, hstop]

theorem pos_read_base128_le (c : Cursor) : (c.read .base128).2.pos ≤ c.pos + 11 := by
  have hwidth := scanFrom_width_le (Nat.zero_le 10) c.rest
  rw [read_base128]
  apply Nat.add_le_add_left
  simpa [scan] using hwidth

end Cursor

/-- A number is read exactly where one of 64 bits is spelled in at most ten bytes, and the
read stops behind it. Too large a number is reported, with what the digits before make,
exactly where ten bytes hold too many bits or an eleventh follows. Everywhere else the buffer
ends too early, and so does the read. No read takes more than eleven bytes, and the loop
that does it on words never leaves them. -/
theorem base128_read_exact (buf : Bytes) (hbuf : buf.length < 2 ^ 63) (p : UInt64) :
    let start := p.toNat
    let read := (Cursor.ofBytesAt buf start).read .base128
    (∀ v, read.1 = .ok v ↔ ∃ k ≤ 9, SpelledAt buf start k v) ∧
    (∀ k ≤ 9, ∀ v, SpelledAt buf start k v →
      read = (.ok v, ⟨start + k + 1, buf.drop (start + k + 1)⟩)) ∧
    (∀ n, read.1 = .error (.lengthOverflow .varint n) ↔ OverflowsAt buf start ∧
      n = valueAt buf start (if 1 < digitAt buf (start + 9) then 9 else 10)) ∧
    ((¬∃ k ≤ 9, ∃ v, SpelledAt buf start k v) → ¬OverflowsAt buf start →
      read = (.error (.truncated start (buf.length - start + 1) (buf.length - start)),
        ⟨max start buf.length, []⟩)) ∧
    ¬((∃ k ≤ 9, ∃ v, SpelledAt buf start k v) ∧ OverflowsAt buf start) ∧
    read.2.pos ≤ start + 11 ∧
    ∃ stop, Words.read? buf p = some (read.1, stop) ∧ stop.toNat = read.2.pos := by
  intro start read
  refine ⟨fun v => Cursor.read_base128_eq_ok_iff, fun k hk v => Cursor.read_base128_of_spelledAt hk,
    fun n => Cursor.read_base128_eq_overflow_iff, Cursor.read_base128_of_neither, ?_,
    Cursor.pos_read_base128_le _, Words.read?_eq hbuf p⟩
  rintro ⟨⟨k, hk, v, hspelled⟩, hoverflows⟩
  have hok := Cursor.read_base128_eq_ok_iff.mpr ⟨k, hk, hspelled⟩
  have herror := Cursor.read_base128_eq_overflow_iff.mpr ⟨hoverflows, rfl⟩
  cases hok.symm.trans herror

/-- Zero, spelled with all the padding that is read: nine more bytes than it needs. -/
theorem base128_read_exact_padded :
    let buf : Bytes := 7 :: List.replicate 9 0x80 ++ [0, 9]
    buf.length < 2 ^ 63 ∧ (Cursor.ofBytesAt buf 1).read .base128 = (.ok 0, ⟨11, [9]⟩) ∧
      ∃ stop, Words.read? buf 1 = some (.ok 0, stop) ∧ stop.toNat = 11 := by
  intro buf
  have hbuf : buf.length < 2 ^ 63 := by decide
  have hspelled : SpelledAt buf 1 9 0 := by
    constructor
    · have hbytes : ∀ j < 9, buf[1 + j]? = some 0x80 := by decide
      intro j hj
      exact ⟨0x80, hbytes j hj, by decide⟩
    · exact ⟨0, rfl, by decide⟩
    · decide +kernel
    · decide
  obtain ⟨-, hread, -, -, -, -, stop, hwords, hstop⟩ := base128_read_exact buf hbuf 1
  have hread : (Cursor.ofBytesAt buf 1).read .base128 = (.ok 0, ⟨11, [9]⟩) :=
    hread 9 (Nat.le_refl 9) 0 hspelled
  refine ⟨hbuf, hread, stop, ?_, ?_⟩
  · exact hwords.trans (congrArg (fun read => some (read.1, stop)) hread)
  · exact hstop.trans (congrArg (fun read => read.2.pos) hread)

/-! ## Written numbers -/

namespace Reader

/-- As many numbers as are asked for, one behind the other. -/
def numbers : Nat → Reader (List Nat)
  | 0 => return []
  | n + 1 => do
    let first ← base128
    let others ← numbers n
    return first :: others

theorem Settles.spell {n : Nat} (hn : n < UInt64.size) :
    Reader.base128.Settles (Base128.spell n) (.ok n) :=
  .base128 (spellsWord_spell hn)

theorem Settles.numbers {ns : List Nat} (hns : ∀ n ∈ ns, n < UInt64.size) :
    (Reader.numbers ns.length).Settles (ns.flatMap Base128.spell) (.ok ns) := by
  induction ns with
  | nil => exact .pure []
  | cons n ns ih =>
    rw [List.forall_mem_cons] at hns
    exact (spell hns.1).bind (ih hns.2).map

/-- Bytes that a read takes to the last one are a spelling of what it answers. -/
theorem spellsWord_of_read {bs : Bytes} {n : Nat} {c : Cursor}
    (h : (Cursor.ofBytes bs).read .base128 = (.ok n, c)) (hc : c.pos = bs.length) :
    SpellsWord bs n := by
  obtain ⟨front, hbs, hpos, hsettles⟩ := Incremental.base128.exists_settles_of_read h
  simp only [Cursor.ofBytes, Nat.zero_add] at hbs hpos
  have hlength := congrArg List.length hbs
  rw [List.length_append] at hlength
  have hrest : c.rest = [] := by
    apply List.eq_nil_of_length_eq_zero
    omega
  rw [hrest, List.append_nil] at hbs
  subst hbs
  exact settles_base128_iff.mp hsettles

end Reader

theorem Cursor.ofBytesAt_append (before after : Bytes) :
    ofBytesAt (before ++ after) before.length = ⟨before.length, after⟩ := by
  simp [ofBytesAt]

theorem length_flatMap_spell (ns : List Nat) :
    (ns.flatMap spell).length = (ns.map width).sum := by
  simp [List.length_flatMap]

/-- In any surroundings the spelling of a number is read back as that number and to its
end. It takes from one to ten bytes, as many as are announced. Whatever else is read to its
end as the same number takes more. So numbers written one behind the other are read back in
their order. -/
theorem spell_read_back_and_shortest :
    (∀ (v : UInt64) (before after : Bytes),
      (Cursor.ofBytesAt (before ++ spell v.toNat ++ after) before.length).read .base128 =
        (.ok v.toNat, ⟨before.length + width v.toNat, after⟩)) ∧
    (∀ v : UInt64, width v.toNat = (spell v.toNat).length ∧
      1 ≤ width v.toNat ∧ width v.toNat ≤ 10) ∧
    (∀ (bs : Bytes) v c, (Cursor.ofBytes bs).read .base128 = (.ok v, c) → c.pos = bs.length →
      width v ≤ bs.length ∧ (bs.length = width v ↔ bs = spell v)) ∧
    ∀ (vs : List UInt64) (before after : Bytes),
      let ns := vs.map UInt64.toNat
      (Cursor.ofBytesAt (before ++ ns.flatMap spell ++ after) before.length).read
          (.numbers vs.length) =
        (.ok ns, ⟨before.length + (ns.map width).sum, after⟩) := by
  refine ⟨?_, ?_, ?_, ?_⟩
  · intro v before after
    rw [List.append_assoc, Cursor.ofBytesAt_append, Reader.Settles.spell v.toNat_lt, length_spell]
  · intro v
    have hlength := (spellsWord_spell v.toNat_lt).length_le
    rw [length_spell] at hlength
    exact ⟨(length_spell _).symm, width_pos _, hlength⟩
  · intro bs v c hread hc
    have hshorter := (Reader.spellsWord_of_read hread hc).spells.spell_eqOrShorter
    have hle := hshorter.length_le
    rw [length_spell] at hle
    refine ⟨hle, ?_, ?_⟩
    · intro hlength
      apply (hshorter.eq_of_length_le _).symm
      rw [hlength, length_spell]
    · intro hbs
      rw [hbs, length_spell]
  · intro vs before after ns
    have hns : ∀ n ∈ ns, n < UInt64.size := by
      intro n hn
      obtain ⟨v, -, rfl⟩ := List.mem_map.mp hn
      exact v.toNat_lt
    have hlength : vs.length = ns.length := (List.length_map ..).symm
    rw [List.append_assoc, Cursor.ofBytesAt_append, hlength, Reader.Settles.numbers hns,
      length_flatMap_spell]

/-- 300 in three bytes, one more than it needs. -/
theorem spell_read_back_and_shortest_padded :
    let bs : Bytes := [0xAC, 0x82, 0]
    (Cursor.ofBytes bs).read .base128 = (.ok 300, ⟨3, []⟩) ∧ width 300 ≤ bs.length ∧
      ¬bs.length = width 300 := by
  intro bs
  have hread : (Cursor.ofBytes bs).read .base128 = (.ok 300, ⟨3, []⟩) := by decide +kernel
  obtain ⟨-, -, hshortest, -⟩ := spell_read_back_and_shortest
  obtain ⟨hle, hiff⟩ := hshortest bs 300 ⟨3, []⟩ hread rfl
  refine ⟨hread, hle, ?_⟩
  intro hlength
  have hother : bs ≠ spell 300 := by decide +kernel
  exact hother (hiff.mp hlength)

end ShardedRecords
