import ShardedRecords.Proofs.Base128
import ShardedRecords.Wire.Cursor

/-!
# Reading a number into a word

A reader on 64-bit words keeps the position, the number so far and the place of the
next digit in words, and puts the digits together bit by bit. Here every calculation of it is
checked and gives nothing unless it is exact. None of them ever gives nothing: the loop
reads what the exact numbers say, in any buffer of less than 2^63 bytes.
-/
namespace ShardedRecords.Base128.Words

/-- A sum, unless it leaves the words. -/
def add? (a b : UInt64) : Option UInt64 :=
  if a.toNat + b.toNat < UInt64.size then some (a + b) else none

/-- A difference, unless it is negative. -/
def sub? (a b : UInt64) : Option UInt64 :=
  if b.toNat ≤ a.toNat then some (a - b) else none

/-- A word moved up by some bits, unless a word has fewer or bits that are set are lost. -/
def shiftLeft? (a : UInt64) (bits : UInt32) : Option UInt64 :=
  if bits.toNat < 64 ∧ a.toNat * 2 ^ bits.toNat < UInt64.size then some (a <<< bits.toUInt64)
  else none

/-- The place of the digit behind the one at this place, unless it leaves 32 bits. -/
def nextPlace? (shift : UInt32) : Option UInt32 :=
  if shift.toNat + 7 < UInt32.size then some (shift + 7) else none

/-- The loop between two bytes: where it stands, the number so far, and how many bits the
next digit has to be moved up. -/
structure Progress where
  pos : UInt64
  result : UInt64
  shift : UInt32

/-- What the loop answers on the bytes that are left, and where it stops. -/
def readFrom? (start length : UInt64) (p : Progress) :
    Bytes → Option (Except WireError Nat × UInt64)
  | [] => do
    let read ← sub? p.pos start
    let needed ← add? read 1
    let remaining := if start ≤ length then length - start else 0
    return (.error (.truncated start.toNat needed.toNat remaining.toNat), p.pos)
  | b :: rest => do
    let pos ← add? p.pos 1
    let payload := (b &&& 0x7F).toUInt64
    if 64 ≤ p.shift ∨ p.shift = 63 ∧ 1 < payload then
      return (.error (.lengthOverflow .varint p.result.toNat), pos)
    else
      let digit ← shiftLeft? payload p.shift
      let result := p.result ||| digit
      if b &&& 0x80 = 0 then return (.ok result.toNat, pos)
      else
        let shift ← nextPlace? p.shift
        readFrom? start length ⟨pos, result, shift⟩ rest

def read? (buf : Bytes) (start : UInt64) : Option (Except WireError Nat × UInt64) :=
  readFrom? start (.ofNat buf.length) ⟨start, 0, 0⟩ (buf.drop start.toNat)

/-! ## Exact calculations -/

theorem add?_one {a : UInt64} (h : a.toNat + 1 < UInt64.size) :
    add? a 1 = some (a + 1) ∧ (a + 1).toNat = a.toNat + 1 := by
  constructor
  · exact if_pos h
  · rw [UInt64.toNat_add]
    exact Nat.mod_eq_of_lt h

theorem sub?_of_le {a b : UInt64} (h : b.toNat ≤ a.toNat) :
    sub? a b = some (a - b) ∧ (a - b).toNat = a.toNat - b.toNat := by
  constructor
  · exact if_pos h
  · exact UInt64.toNat_sub_of_le a b h

theorem toNat_payload (b : UInt8) : (b &&& 0x7F).toUInt64.toNat = b.toNat % 128 := by
  simp only [UInt8.toNat_toUInt64, UInt8.toNat_and]
  exact Nat.and_two_pow_sub_one_eq_mod b.toNat 7

theorem and_highBit_eq_zero_iff (b : UInt8) : b &&& 0x80 = 0 ↔ b.toNat < 128 := by
  have h : ∀ n : Fin 256, n.val &&& 128 = 0 ↔ n.val < 128 := by decide +kernel
  rw [← UInt8.toNat_inj, UInt8.toNat_and]
  exact h ⟨b.toNat, b.toNat_lt⟩

/-- A digit that is moved up behind all bits that are set is added by putting it in. -/
theorem shiftLeft?_of_lt {result payload : UInt64} {shift : UInt32} (hshift : shift.toNat < 64)
    (hresult : result.toNat < 2 ^ shift.toNat)
    (hfits : payload.toNat * 2 ^ shift.toNat < UInt64.size) :
    ∃ digit, shiftLeft? payload shift = some digit ∧
      (result ||| digit).toNat = result.toNat + 2 ^ shift.toNat * payload.toNat := by
  refine ⟨payload <<< shift.toUInt64, if_pos ⟨hshift, hfits⟩, ?_⟩
  have hbits : (payload <<< shift.toUInt64).toNat = payload.toNat <<< shift.toNat := by
    rw [UInt64.toNat_shiftLeft, UInt32.toNat_toUInt64, Nat.mod_eq_of_lt hshift,
      Nat.shiftLeft_eq]
    exact Nat.mod_eq_of_lt hfits
  rw [UInt64.toNat_or, hbits, Nat.or_comm, ← Nat.shiftLeft_add_eq_or_of_lt hresult,
    Nat.shiftLeft_eq, Nat.add_comm, Nat.mul_comm]

/-! ## The loop -/

/-- The outcome for a number that has lower digits as well. They make `low`, and the digits
read stand `scale` times higher. -/
def outcomeAbove (low scale : Nat) : Outcome → Outcome
  | .value n => .value (low + scale * n)
  | .overflow n => .overflow (low + scale * n)
  | .cut => .cut

theorem outcomeAbove_cons (low scale digit : Nat) (o : Outcome) :
    outcomeAbove low scale (o.cons digit) = outcomeAbove (low + scale * digit) (scale * 128) o := by
  cases o <;> simp only [outcomeAbove, Outcome.cons, Nat.mul_add, Nat.add_assoc, Nat.mul_assoc]

/-- What a reader answers to an outcome if `remaining` bytes stand behind its start. -/
def answer (start remaining : Nat) : Outcome → Except WireError Nat
  | .value n => .ok n
  | .overflow n => .error (.lengthOverflow .varint n)
  | .cut => .error (.truncated start (remaining + 1) remaining)

theorem leaves_iff {shift : UInt32} {digits : Nat} (hshift : shift.toNat = 7 * digits) (b : UInt8) :
    (64 ≤ shift ∨ shift = 63 ∧ 1 < (b &&& 0x7F).toUInt64) ↔
      10 ≤ digits ∨ digits = 9 ∧ 1 < b.toNat % 128 := by
  rw [UInt32.le_iff_toNat_le, ← UInt32.toNat_inj, UInt64.lt_iff_toNat_lt, toNat_payload, hshift]
  have hfull : (64 : UInt32).toNat = 64 := rfl
  have hlast : (63 : UInt32).toNat = 63 := rfl
  have hone : (1 : UInt64).toNat = 1 := rfl
  omega

theorem digit_fits {digits digit : Nat} (hdigit : digit < 128)
    (hroom : ¬(10 ≤ digits ∨ digits = 9 ∧ 1 < digit)) :
    digit * 2 ^ (7 * digits) < UInt64.size := by
  by_cases hlast : digits = 9
  · subst hlast
    have hbit : digit ≤ 1 := by omega
    calc digit * 2 ^ (7 * 9) ≤ 1 * 2 ^ (7 * 9) := Nat.mul_le_mul_right _ hbit
      _ < UInt64.size := by decide
  · have hpow : 2 ^ (7 * digits) ≤ 2 ^ (7 * 8) := Nat.pow_le_pow_right (by decide) (by omega)
    calc digit * 2 ^ (7 * digits) ≤ 127 * 2 ^ (7 * 8) := Nat.mul_le_mul (by omega) hpow
      _ < UInt64.size := by decide

theorem scale_succ (digits : Nat) : 2 ^ (7 * (digits + 1)) = 2 ^ (7 * digits) * 128 :=
  Nat.pow_add 2 (7 * digits) 7

/-- The loop has read some digits, and has as many bytes left as there are up to the end. -/
structure Reads (start length : UInt64) (p : Progress) (digits : Nat) (bs : Bytes) : Prop where
  pos : p.pos.toNat = start.toNat + digits
  left : digits + bs.length = length.toNat - start.toNat
  shift : p.shift.toNat = 7 * digits
  result : p.result.toNat < 2 ^ (7 * digits)
  digits_le : digits ≤ 10

namespace Reads

variable {start length : UInt64} {p : Progress} {digits : Nat} {b : UInt8} {bs : Bytes}

theorem readFrom?_nil (h : Reads start length p digits []) (hlength : length.toNat < 2 ^ 63) :
    readFrom? start length p [] =
      some (answer start.toNat (length.toNat - start.toNat) .cut, p.pos) := by
  obtain ⟨hpos, hleft, -, -, -⟩ := h
  simp only [List.length_nil, Nat.add_zero] at hleft
  obtain ⟨hread, hreadNat⟩ := sub?_of_le (a := p.pos) (b := start) (by omega)
  obtain ⟨hneeded, hneededNat⟩ := add?_one (a := p.pos - start) (by
    rw [hreadNat, UInt64.size]
    omega)
  have hremaining : (if start ≤ length then length - start else 0).toNat =
      length.toNat - start.toNat := by
    split
    · rename_i hle
      exact UInt64.toNat_sub_of_le length start hle
    · rename_i hle
      rw [UInt64.le_iff_toNat_le] at hle
      simp only [UInt64.toNat_zero]
      omega
  have hsame : p.pos.toNat - start.toNat = length.toNat - start.toNat := by omega
  simp only [readFrom?, hread, hneeded, Option.bind_eq_bind, Option.bind_some, hremaining,
    hneededNat, hreadNat, hsame, answer]
  rfl

theorem next_pos (h : Reads start length p digits (b :: bs)) (hlength : length.toNat < 2 ^ 63) :
    add? p.pos 1 = some (p.pos + 1) ∧ (p.pos + 1).toNat = p.pos.toNat + 1 := by
  have hleft := h.left
  have hpos := h.pos
  simp only [List.length_cons] at hleft
  apply add?_one
  rw [UInt64.size]
  omega

theorem readFrom?_overflow (h : Reads start length p digits (b :: bs))
    (hlength : length.toNat < 2 ^ 63) (hover : 10 ≤ digits ∨ digits = 9 ∧ 1 < b.toNat % 128) :
    readFrom? start length p (b :: bs) =
      some (.error (.lengthOverflow .varint p.result.toNat), p.pos + 1) := by
  simp only [readFrom?, (h.next_pos hlength).1, Option.bind_eq_bind, Option.bind_some]
  rw [if_pos ((leaves_iff h.shift b).mpr hover)]
  rfl

/-- A digit for which there is room is put in exactly. -/
theorem exists_digit (h : Reads start length p digits (b :: bs))
    (hroom : ¬(10 ≤ digits ∨ digits = 9 ∧ 1 < b.toNat % 128)) :
    ∃ digit, shiftLeft? (b &&& 0x7F).toUInt64 p.shift = some digit ∧
      (p.result ||| digit).toNat = p.result.toNat + 2 ^ (7 * digits) * (b.toNat % 128) := by
  have hshift : p.shift.toNat < 64 := by
    rw [h.shift]
    omega
  have hresult : p.result.toNat < 2 ^ p.shift.toNat := h.shift ▸ h.result
  have hfits : (b &&& 0x7F).toUInt64.toNat * 2 ^ p.shift.toNat < UInt64.size := by
    rw [toNat_payload, h.shift]
    exact digit_fits (Nat.mod_lt _ (by decide)) hroom
  simpa only [toNat_payload, h.shift] using shiftLeft?_of_lt hshift hresult hfits

theorem readFrom?_last (h : Reads start length p digits (b :: bs)) (hlength : length.toNat < 2 ^ 63)
    (hroom : ¬(10 ≤ digits ∨ digits = 9 ∧ 1 < b.toNat % 128)) (hb : b.toNat < 128) :
    readFrom? start length p (b :: bs) =
      some (.ok (p.result.toNat + 2 ^ (7 * digits) * b.toNat), p.pos + 1) := by
  obtain ⟨digit, hdigit, hresult⟩ := h.exists_digit hroom
  simp only [readFrom?, (h.next_pos hlength).1, Option.bind_eq_bind, Option.bind_some, hdigit]
  rw [if_neg (mt (leaves_iff h.shift b).mp hroom), if_pos ((and_highBit_eq_zero_iff b).mpr hb),
    hresult, Nat.mod_eq_of_lt hb]
  rfl

theorem readFrom?_more (h : Reads start length p digits (b :: bs)) (hlength : length.toNat < 2 ^ 63)
    (hroom : ¬(10 ≤ digits ∨ digits = 9 ∧ 1 < b.toNat % 128)) (hb : 128 ≤ b.toNat) :
    ∃ p', readFrom? start length p (b :: bs) = readFrom? start length p' bs ∧
      Reads start length p' (digits + 1) bs ∧ p'.pos.toNat = p.pos.toNat + 1 ∧
      p'.result.toNat = p.result.toNat + 2 ^ (7 * digits) * (b.toNat % 128) := by
  obtain ⟨digit, hdigit, hresult⟩ := h.exists_digit hroom
  obtain ⟨hnext, hpos⟩ := h.next_pos hlength
  have hshift : p.shift.toNat + 7 < UInt32.size := by
    rw [h.shift, UInt32.size]
    omega
  have hplace : nextPlace? p.shift = some (p.shift + 7) := if_pos hshift
  refine ⟨⟨p.pos + 1, p.result ||| digit, p.shift + 7⟩, ?_, ?_, hpos, hresult⟩
  · simp only [readFrom?, hnext, Option.bind_eq_bind, Option.bind_some, hdigit, hplace]
    rw [if_neg (mt (leaves_iff h.shift b).mp hroom),
      if_neg (mt (and_highBit_eq_zero_iff b).mp (Nat.not_lt.mpr hb))]
  · constructor
    · rw [hpos, h.pos, Nat.add_assoc]
    · have hleft := h.left
      simp only [List.length_cons] at hleft
      omega
    · rw [UInt32.toNat_add, h.shift]
      have hseven : (7 : UInt32).toNat = 7 := rfl
      omega
    · -- The digits below stay below the place that the next one gets.
      have hbelow := h.result
      have hdigit : b.toNat % 128 < 128 := Nat.mod_lt _ (by decide)
      rw [hresult, scale_succ]
      calc p.result.toNat + 2 ^ (7 * digits) * (b.toNat % 128)
          < 2 ^ (7 * digits) + 2 ^ (7 * digits) * (b.toNat % 128) := Nat.add_lt_add_right hbelow _
        _ = 2 ^ (7 * digits) * (b.toNat % 128 + 1) := by rw [Nat.mul_add, Nat.mul_one, Nat.add_comm]
        _ ≤ 2 ^ (7 * digits) * 128 := Nat.mul_le_mul_left _ hdigit
    · omega

/-- The loop goes on to read what an exact scan of the bytes that are left says. -/
theorem readFrom?_eq (h : Reads start length p digits bs) (hlength : length.toNat < 2 ^ 63) :
    ∃ pos, readFrom? start length p bs = some (answer start.toNat (length.toNat - start.toNat)
        (outcomeAbove p.result.toNat (2 ^ (7 * digits)) (scanFrom digits bs).outcome), pos) ∧
      pos.toNat = p.pos.toNat + (scanFrom digits bs).width := by
  induction bs generalizing p digits with
  | nil => exact ⟨p.pos, h.readFrom?_nil hlength, rfl⟩
  | cons b bs ih =>
    by_cases hover : 10 ≤ digits ∨ digits = 9 ∧ 1 < b.toNat % 128
    · rw [h.readFrom?_overflow hlength hover, scanFrom_overflow hover]
      exact ⟨_, rfl, (h.next_pos hlength).2⟩
    · by_cases hb : b.toNat < 128
      · rw [h.readFrom?_last hlength hover hb, scanFrom_last hover hb]
        exact ⟨_, rfl, (h.next_pos hlength).2⟩
      · obtain ⟨p', hread, h', hpos, hresult⟩ := h.readFrom?_more hlength hover (Nat.not_lt.mp hb)
        obtain ⟨pos, hrest, hstop⟩ := ih h'
        refine ⟨pos, ?_, ?_⟩
        · rw [hread, hrest, scanFrom_more hover (Nat.not_lt.mp hb), outcomeAbove_cons, hresult,
            scale_succ]
        · rw [hstop, hpos, scanFrom_more hover (Nat.not_lt.mp hb)]
          simp only
          omega

end Reads

theorem read_base128_fst (c : Cursor) :
    (c.read .base128).1 = answer c.pos c.remaining (scan c.rest).outcome := by
  rw [Cursor.read_base128]
  cases (scan c.rest).outcome <;> rfl

theorem outcomeAbove_zero (o : Outcome) : outcomeAbove 0 1 o = o := by
  cases o <;> simp [outcomeAbove]

/-- The loop on words never leaves them, and is the reader of exact numbers. -/
theorem read?_eq {buf : Bytes} (hbuf : buf.length < 2 ^ 63) (start : UInt64) :
    ∃ pos, read? buf start = some (((Cursor.ofBytesAt buf start.toNat).read .base128).1, pos) ∧
      pos.toNat = ((Cursor.ofBytesAt buf start.toNat).read .base128).2.pos := by
  have hlength : (UInt64.ofNat buf.length).toNat = buf.length :=
    UInt64.toNat_ofNat_of_lt' (Nat.lt_trans hbuf (by decide))
  have hreads : Reads start (.ofNat buf.length) ⟨start, 0, 0⟩ 0 (buf.drop start.toNat) := by
    constructor
    · rfl
    · rw [hlength, List.length_drop, Nat.zero_add]
    · rfl
    · exact Nat.one_pos
    · exact Nat.zero_le 10
  obtain ⟨pos, hread, hpos⟩ := hreads.readFrom?_eq (hlength.symm ▸ hbuf)
  refine ⟨pos, ?_, hpos⟩
  rw [read?, hread, read_base128_fst, hlength]
  simp only [UInt64.toNat_zero, Nat.mul_zero, Nat.pow_zero, outcomeAbove_zero, Cursor.ofBytesAt,
    Cursor.remaining, List.length_drop]
  rfl

end ShardedRecords.Base128.Words
