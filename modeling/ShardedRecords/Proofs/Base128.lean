import Mathlib.Algebra.Group.Nat.Defs
import ShardedRecords.Base128

/-!
# Reading base-128 numbers

What is read as a number is any spelling of it in ten bytes at most, padded or not,
and the writer's own spelling is one of them. The outcome of a scan is settled by
the bytes that it has read: what stands behind them changes nothing, and unless the
scan ran into the end of the input there is nothing to wait for.
-/
namespace ShardedRecords.Base128

/-- Bytes that spell a number: seven bits to a byte, the least significant first, and
the high bit set in every byte but the last. -/
inductive Spells : Bytes → Nat → Prop
  | last {b : UInt8} (hb : b.toNat < 128) : Spells [b] b.toNat
  | more {b : UInt8} {bs : Bytes} {n : Nat} (hb : 128 ≤ b.toNat) (h : Spells bs n) :
      Spells (b :: bs) (b.toNat % 128 + 128 * n)

theorem Spells.length_pos {bs : Bytes} {n : Nat} (h : Spells bs n) : 0 < bs.length := by
  cases h <;> simp

theorem spells_spell (n : Nat) : Spells (spell n) n := by
  fun_induction spell n with
  | case1 n hlt =>
    have hbyte : (UInt8.ofNat n).toNat = n := by
      rw [UInt8.toNat_ofNat']
      omega
    have h := Spells.last (b := UInt8.ofNat n) (by omega)
    rwa [hbyte] at h
  | case2 n hge ih =>
    have hbyte : (UInt8.ofNat (n % 128 + 128)).toNat = n % 128 + 128 := by
      rw [UInt8.toNat_ofNat']
      omega
    have h := ih.more (b := UInt8.ofNat (n % 128 + 128)) (by omega)
    have hvalue : (n % 128 + 128) % 128 + 128 * (n / 128) = n := by omega
    rwa [hbyte, hvalue] at h

theorem width_pos (n : Nat) : 0 < width n := by
  rw [width]
  split <;> omega

theorem width_le {n digits : Nat} (hn : n < 128 ^ (digits + 1)) : width n ≤ digits + 1 := by
  induction digits generalizing n with
  | zero =>
    have hsmall : n < 128 := by simpa using hn
    simp [width, hsmall]
  | succ digits ih =>
    rw [width]
    split
    · omega
    · have hdiv : n / 128 < 128 ^ (digits + 1) := by
        rw [Nat.pow_succ] at hn
        exact Nat.div_lt_of_lt_mul (by rwa [Nat.mul_comm] at hn)
      exact Nat.succ_le_succ (ih hdiv)

theorem scanFrom_overflow {digits : Nat} {b : UInt8}
    (hover : 10 ≤ digits ∨ digits = 9 ∧ 1 < b.toNat % 128) (bs : Bytes) :
    scanFrom digits (b :: bs) = ⟨.overflow 0, 1, bs⟩ := by
  simp only [scanFrom]
  rw [if_pos hover]

theorem scanFrom_last {digits : Nat} {b : UInt8}
    (hroom : ¬(10 ≤ digits ∨ digits = 9 ∧ 1 < b.toNat % 128)) (hb : b.toNat < 128) (bs : Bytes) :
    scanFrom digits (b :: bs) = ⟨.value b.toNat, 1, bs⟩ := by
  simp only [scanFrom]
  rw [if_neg hroom, if_pos hb, Nat.mod_eq_of_lt hb]

theorem scanFrom_more {digits : Nat} {b : UInt8}
    (hroom : ¬(10 ≤ digits ∨ digits = 9 ∧ 1 < b.toNat % 128)) (hb : 128 ≤ b.toNat) (bs : Bytes) :
    scanFrom digits (b :: bs) = ⟨(scanFrom (digits + 1) bs).outcome.cons (b.toNat % 128),
      (scanFrom (digits + 1) bs).width + 1, (scanFrom (digits + 1) bs).rest⟩ := by
  simp only [scanFrom]
  rw [if_neg hroom, if_neg (by omega)]

/-- How many numbers there is room for behind `digits` digits: a bit in the tenth
byte, and seven in each byte before it. -/
def room (digits : Nat) : Nat := 2 * 128 ^ (9 - digits)

theorem room_zero : room 0 = UInt64.size := by decide

theorem room_pos (digits : Nat) : 0 < room digits := by
  apply Nat.mul_pos (by decide)
  exact Nat.pow_pos (by decide)

theorem room_eq {digits : Nat} (h : digits < 9) : room digits = 128 * room (digits + 1) := by
  have hexp : 9 - digits = 9 - (digits + 1) + 1 := by omega
  rw [room, room, hexp, Nat.pow_succ]
  omega

theorem scanFrom_append_of_spells {bs : Bytes} {n digits : Nat} (h : Spells bs n)
    (hlen : digits + bs.length ≤ 10) (hn : n < room digits) (rest : Bytes) :
    scanFrom digits (bs ++ rest) = ⟨.value n, bs.length, rest⟩ := by
  induction h generalizing digits with
  | @last b hb =>
    -- In the tenth byte there is room for one bit only.
    have hroom : ¬(10 ≤ digits ∨ digits = 9 ∧ 1 < b.toNat % 128) := by
      rintro (hd | ⟨rfl, hbit⟩)
      · simp at hlen
        omega
      · simp [room] at hn
        omega
    exact scanFrom_last hroom hb rest
  | @more b bs n hb h ih =>
    have hpos := h.length_pos
    simp only [List.length_cons] at hlen
    have hdigits : digits < 9 := by omega
    have hnext : n < room (digits + 1) := by
      rw [room_eq hdigits] at hn
      omega
    rw [List.cons_append, scanFrom_more (by omega) hb, ih (by omega) hnext]
    rfl

theorem spells_of_scanFrom {digits : Nat} {bs : Bytes} {n : Nat}
    (h : (scanFrom digits bs).outcome = .value n) :
    ∃ front, bs = front ++ (scanFrom digits bs).rest ∧ Spells front n ∧
      digits + front.length ≤ 10 ∧ n < room digits := by
  induction bs generalizing digits n with
  | nil => cases h
  | cons b bs ih =>
    by_cases hover : 10 ≤ digits ∨ digits = 9 ∧ 1 < b.toNat % 128
    · simp [scanFrom, hover] at h
    by_cases hlt : b.toNat < 128
    · rw [scanFrom_last hover hlt] at h ⊢
      cases h
      refine ⟨[b], rfl, .last hlt, by simp only [List.length_singleton]; omega, ?_⟩
      by_cases hlast : digits = 9
      · subst hlast
        simp only [room]
        omega
      · have hpos := room_pos (digits + 1)
        rw [room_eq (by omega)]
        omega
    · rw [scanFrom_more hover (by omega)] at h ⊢
      cases ho : (scanFrom (digits + 1) bs).outcome with
      | value n' =>
        rw [ho] at h
        cases h
        obtain ⟨front, hfront, hspells, hlen, hn⟩ := ih ho
        have hpos := hspells.length_pos
        refine ⟨b :: front, congrArg (b :: ·) hfront, .more (by omega) hspells, ?_, ?_⟩
        · simp only [List.length_cons]
          omega
        · rw [room_eq (by omega)]
          omega
      | overflow n' => simp [ho, Outcome.cons] at h
      | cut => simp [ho, Outcome.cons] at h

/-- A spelling that is read: of a 64-bit number, in ten bytes at most. -/
structure SpellsWord (bs : Bytes) (n : Nat) : Prop where
  spells : Spells bs n
  length_le : bs.length ≤ 10
  lt_size : n < UInt64.size

theorem spellsWord_spell {n : Nat} (hn : n < UInt64.size) : SpellsWord (spell n) n := by
  refine ⟨spells_spell n, ?_, hn⟩
  rw [length_spell]
  exact width_le (Nat.lt_of_lt_of_le hn (by decide))

theorem SpellsWord.scan_append {bs : Bytes} {n : Nat} (h : SpellsWord bs n) (rest : Bytes) :
    scan (bs ++ rest) = ⟨.value n, bs.length, rest⟩ :=
  scanFrom_append_of_spells h.spells (by simpa using h.length_le) (room_zero ▸ h.lt_size) rest

theorem spellsWord_of_scan {bs : Bytes} {n : Nat} (h : (scan bs).outcome = .value n) :
    ∃ front, bs = front ++ (scan bs).rest ∧ SpellsWord front n := by
  obtain ⟨front, hfront, hspells, hlen, hn⟩ := spells_of_scanFrom h
  exact ⟨front, hfront, hspells, by omega, room_zero ▸ hn⟩

theorem Outcome.cons_eq_cut_iff {digit : Nat} {o : Outcome} : o.cons digit = .cut ↔ o = .cut := by
  cases o <;> simp [Outcome.cons]

/-- A scan that does not run into the end of the input stops behind a front of it,
and stops there whatever follows. -/
theorem scanFrom_eq_of_ne_cut {digits : Nat} {bs : Bytes}
    (h : (scanFrom digits bs).outcome ≠ .cut) :
    ∃ front, bs = front ++ (scanFrom digits bs).rest ∧
      ∀ rest, scanFrom digits (front ++ rest) =
        ⟨(scanFrom digits bs).outcome, front.length, rest⟩ := by
  fun_induction scanFrom digits bs with
  | case1 => exact absurd rfl h
  | case2 digits b rest digit hover =>
    refine ⟨[b], rfl, fun t => ?_⟩
    simp only [List.singleton_append, scanFrom]
    rw [if_pos hover]
    rfl
  | case3 digits b rest digit hfits hlt =>
    refine ⟨[b], rfl, fun t => ?_⟩
    simp only [List.singleton_append, scanFrom]
    rw [if_neg hfits, if_pos hlt]
    rfl
  | case4 digits b rest digit hfits hge tail ih =>
    obtain ⟨front, hfront, hrest⟩ := ih fun hc => h (Outcome.cons_eq_cut_iff.mpr hc)
    refine ⟨b :: front, congrArg (b :: ·) hfront, fun t => ?_⟩
    simp only [List.cons_append, scanFrom]
    rw [if_neg hfits, if_neg hge, hrest]
    rfl

theorem scan_eq_of_ne_cut {bs : Bytes} (h : (scan bs).outcome ≠ .cut) :
    ∃ front, bs = front ++ (scan bs).rest ∧
      ∀ rest, scan (front ++ rest) = ⟨(scan bs).outcome, front.length, rest⟩ :=
  scanFrom_eq_of_ne_cut h

end ShardedRecords.Base128
