import Mathlib.Algebra.BigOperators.Ring.Finset
import Mathlib.Tactic.Ring
import ShardedRecords.Proofs.Base128

/-!
# Numbers at an offset

Which of the three ways a scan ends is decided by at most eleven bytes from where it
begins. A number is read where a byte without the high bit comes in time and the digits
up to it make a 64-bit number. There are too many bits where nine bytes have gone by
without it and the tenth holds more than the one bit that is left, or has another byte
behind it. Otherwise the buffer ends too early.
-/
namespace ShardedRecords.Base128

/-- Another byte of the number follows the one at `i`. -/
def ContinuesAt (buf : Bytes) (i : Nat) : Prop := ∃ b, buf[i]? = some b ∧ 128 ≤ b.toNat

/-- The byte at `i` is the last one of a number. -/
def EndsAt (buf : Bytes) (i : Nat) : Prop := ∃ b, buf[i]? = some b ∧ b.toNat < 128

/-- The seven bits that the byte at `i` adds to a number, and none behind the end. -/
def digitAt (buf : Bytes) (i : Nat) : Nat := (buf[i]?.getD 0).toNat % 128

/-- The number that the first `count` digits from `start` on make. -/
def valueAt (buf : Bytes) (start count : Nat) : Nat :=
  ∑ j ∈ Finset.range count, digitAt buf (start + j) * 128 ^ j

/-- The number `n` of 64 bits is spelled from `start` on, with `k` bytes before the last. -/
@[mk_iff]
structure SpelledAt (buf : Bytes) (start k n : Nat) : Prop where
  continues : ∀ j < k, ContinuesAt buf (start + j)
  ends : EndsAt buf (start + k)
  value : n = valueAt buf start (k + 1)
  lt_size : n < UInt64.size

/-- At `i` stands the tenth byte of a number, and there are bits in it, or a byte behind it,
that 64 bits have no room for. -/
def LeavesWordAt (buf : Bytes) (i : Nat) : Prop :=
  i < buf.length ∧ 1 < digitAt buf i ∨
    digitAt buf i ≤ 1 ∧ ContinuesAt buf i ∧ i + 1 < buf.length

/-- What is spelled from `start` on takes more than 64 bits. -/
@[mk_iff]
structure OverflowsAt (buf : Bytes) (start : Nat) : Prop where
  continues : ∀ j < 9, ContinuesAt buf (start + j)
  tenth : LeavesWordAt buf (start + 9)

section Shift

variable (b : UInt8) (bs buf : Bytes) (start i k : Nat)

@[simp] theorem continuesAt_cons_zero : ContinuesAt (b :: bs) 0 ↔ 128 ≤ b.toNat := by
  simp [ContinuesAt]

@[simp] theorem continuesAt_cons_succ : ContinuesAt (b :: bs) (i + 1) ↔ ContinuesAt bs i := by
  simp [ContinuesAt]

@[simp] theorem endsAt_cons_zero : EndsAt (b :: bs) 0 ↔ b.toNat < 128 := by
  simp [EndsAt]

@[simp] theorem endsAt_cons_succ : EndsAt (b :: bs) (i + 1) ↔ EndsAt bs i := by
  simp [EndsAt]

@[simp] theorem digitAt_cons_zero : digitAt (b :: bs) 0 = b.toNat % 128 := by
  simp [digitAt]

@[simp] theorem digitAt_cons_succ : digitAt (b :: bs) (i + 1) = digitAt bs i := by
  simp [digitAt]

theorem valueAt_cons_succ :
    valueAt (b :: bs) 0 (k + 1) = b.toNat % 128 + 128 * valueAt bs 0 k := by
  unfold valueAt
  rw [Finset.sum_range_succ', Finset.mul_sum, Nat.add_comm]
  simp only [Nat.zero_add, digitAt_cons_zero, digitAt_cons_succ, pow_zero, Nat.mul_one]
  congr 1
  apply Finset.sum_congr rfl
  intro j _
  rw [pow_succ]
  ring

theorem continuesAt_drop : ContinuesAt (buf.drop start) i ↔ ContinuesAt buf (start + i) := by
  simp [ContinuesAt]

theorem endsAt_drop : EndsAt (buf.drop start) i ↔ EndsAt buf (start + i) := by
  simp [EndsAt]

theorem digitAt_drop : digitAt (buf.drop start) i = digitAt buf (start + i) := by
  simp [digitAt]

theorem valueAt_drop : valueAt (buf.drop start) 0 k = valueAt buf start k := by
  simp [valueAt, digitAt_drop]

theorem spelledAt_drop {n : Nat} : SpelledAt (buf.drop start) 0 k n ↔ SpelledAt buf start k n := by
  simp only [spelledAt_iff, Nat.zero_add, continuesAt_drop, endsAt_drop, valueAt_drop]

theorem overflowsAt_drop : OverflowsAt (buf.drop start) 0 ↔ OverflowsAt buf start := by
  have hbehind : ∀ j, 0 + j < (buf.drop start).length ↔ start + j < buf.length := by
    intro j
    rw [List.length_drop]
    omega
  simp only [overflowsAt_iff, LeavesWordAt, Nat.add_assoc, hbehind]
  simp only [Nat.zero_add, continuesAt_drop, digitAt_drop]

end Shift

/-! ## Where a number ends -/

theorem EndsAt.lt_length {buf : Bytes} {i : Nat} (h : EndsAt buf i) : i < buf.length := by
  obtain ⟨b, hb, -⟩ := h
  exact (List.getElem?_eq_some_iff.mp hb).choose

theorem spells_take_iff {bs : Bytes} {k n : Nat} (hk : k < bs.length) :
    Spells (bs.take (k + 1)) n ↔
      (∀ j < k, ContinuesAt bs j) ∧ EndsAt bs k ∧ n = valueAt bs 0 (k + 1) := by
  induction k generalizing bs n with
  | zero =>
    obtain ⟨b, bs, rfl⟩ := List.exists_cons_of_length_pos hk
    simp only [List.take_succ_cons, List.take_zero, valueAt_cons_succ, endsAt_cons_zero]
    constructor
    · intro h
      cases h with
      | last hb => simp [hb, valueAt, Nat.mod_eq_of_lt hb]
      | more hb h => cases h
    · rintro ⟨-, hb, rfl⟩
      simpa [valueAt, Nat.mod_eq_of_lt hb] using Spells.last hb
  | succ k ih =>
    obtain ⟨b, bs, rfl⟩ := List.exists_cons_of_length_pos (Nat.zero_lt_of_lt hk)
    have hk : k < bs.length := Nat.lt_of_succ_lt_succ hk
    simp only [List.take_succ_cons, valueAt_cons_succ b bs (k + 1), endsAt_cons_succ]
    constructor
    · intro h
      generalize hfront : bs.take (k + 1) = front at h
      cases h with
      | last hb =>
        have hlength := congrArg List.length hfront
        simp only [List.length_take, List.length_nil] at hlength
        omega
      | more hb h =>
        subst hfront
        obtain ⟨hcontinues, hends, rfl⟩ := (ih hk).mp h
        refine ⟨?_, hends, rfl⟩
        intro j hj
        cases j with
        | zero => simpa using hb
        | succ j => simpa using hcontinues j (Nat.lt_of_succ_lt_succ hj)
    · rintro ⟨hcontinues, hends, rfl⟩
      have hb := hcontinues 0 (Nat.succ_pos k)
      have hrest : ∀ j < k, ContinuesAt bs j := by
        intro j hj
        simpa using hcontinues (j + 1) (Nat.succ_lt_succ hj)
      exact .more (by simpa using hb) ((ih hk).mpr ⟨hrest, hends, rfl⟩)

/-- In front of the input stands a spelling that a scan reads, of `k + 1` bytes. -/
theorem spellsWord_take_iff {bs : Bytes} {k n : Nat} (hk : k < bs.length) :
    SpellsWord (bs.take (k + 1)) n ↔ k ≤ 9 ∧ SpelledAt bs 0 k n := by
  have hlength : (bs.take (k + 1)).length = k + 1 := List.length_take_of_le hk
  simp only [spelledAt_iff, Nat.zero_add]
  constructor
  · rintro ⟨hspells, hle, hlt⟩
    obtain ⟨hcontinues, hends, hvalue⟩ := (spells_take_iff hk).mp hspells
    exact ⟨by omega, hcontinues, hends, hvalue, hlt⟩
  · rintro ⟨hle, hcontinues, hends, hvalue, hlt⟩
    exact ⟨(spells_take_iff hk).mpr ⟨hcontinues, hends, hvalue⟩, by omega, hlt⟩

theorem scan_of_spelledAt {bs : Bytes} {k n : Nat} (hk : k ≤ 9) (h : SpelledAt bs 0 k n) :
    scan bs = ⟨.value n, k + 1, bs.drop (k + 1)⟩ := by
  have hlt : k < bs.length := by simpa using h.ends.lt_length
  have hscan := ((spellsWord_take_iff hlt).mpr ⟨hk, h⟩).scan_append (bs.drop (k + 1))
  rwa [List.take_append_drop, List.length_take_of_le hlt] at hscan

theorem scan_eq_value_iff (bs : Bytes) {n : Nat} :
    (scan bs).outcome = .value n ↔ ∃ k ≤ 9, SpelledAt bs 0 k n := by
  constructor
  · intro h
    obtain ⟨front, hbs, hspells⟩ := spellsWord_of_scan h
    obtain ⟨k, hk⟩ : ∃ k, front.length = k + 1 :=
      Nat.exists_eq_add_one_of_ne_zero (Nat.ne_of_gt hspells.spells.length_pos)
    have htake : bs.take (k + 1) = front := by
      rw [hbs, ← hk, List.take_left]
    have hlt : k < bs.length := by
      rw [hbs, List.length_append]
      omega
    exact ⟨k, (spellsWord_take_iff hlt).mp (htake ▸ hspells)⟩
  · rintro ⟨k, hk, h⟩
    rw [scan_of_spelledAt hk h]

/-! ## Where there are too many bits -/

theorem Outcome.cons_eq_overflow_iff {digit n : Nat} {o : Outcome} :
    o.cons digit = .overflow n ↔ ∃ m, o = .overflow m ∧ n = digit + 128 * m := by
  cases o <;> simp [Outcome.cons, eq_comm]

@[simp] theorem leavesWordAt_cons_succ (b : UInt8) (bs : Bytes) (i : Nat) :
    LeavesWordAt (b :: bs) (i + 1) ↔ LeavesWordAt bs i := by
  simp [LeavesWordAt]

/-- The tenth byte, with nothing but the byte behind it to decide. -/
theorem scanFrom_nine_eq_overflow_iff {bs : Bytes} {n : Nat} :
    (scanFrom 9 bs).outcome = .overflow n ↔
      LeavesWordAt bs 0 ∧ n = valueAt bs 0 (if 1 < digitAt bs 0 then 0 else 1) := by
  cases bs with
  | nil => simp [scanFrom, LeavesWordAt, ContinuesAt]
  | cons b bs =>
    by_cases hbits : 1 < b.toNat % 128
    · simp [scanFrom, LeavesWordAt, hbits, valueAt, eq_comm]
    · by_cases hlast : b.toNat < 128
      · simp [scanFrom, LeavesWordAt, hbits, hlast, Nat.not_le.mpr hlast]
      · -- The eleventh byte overflows whatever it is.
        rw [scanFrom_more (by omega) (by omega)]
        cases bs with
        | nil => simp [scanFrom, LeavesWordAt, Outcome.cons, hbits]
        | cons c cs =>
          simp [scanFrom, LeavesWordAt, Outcome.cons, hbits, valueAt, eq_comm]
          omega

theorem scanFrom_eq_overflow_iff {left : Nat} (hleft : left ≤ 9) {bs : Bytes} {n : Nat} :
    (scanFrom (9 - left) bs).outcome = .overflow n ↔
      (∀ j < left, ContinuesAt bs j) ∧ LeavesWordAt bs left ∧
        n = valueAt bs 0 (if 1 < digitAt bs left then left else left + 1) := by
  induction left generalizing bs n with
  | zero => simpa using scanFrom_nine_eq_overflow_iff
  | succ left ih =>
    cases bs with
    | nil => simp [scanFrom, LeavesWordAt, ContinuesAt]
    | cons b bs =>
      simp only [Nat.forall_lt_succ_left, continuesAt_cons_zero, continuesAt_cons_succ,
        leavesWordAt_cons_succ, digitAt_cons_succ]
      by_cases hlast : b.toNat < 128
      · rw [scanFrom_last (by omega) hlast]
        simp [Nat.not_le.mpr hlast]
      · have hdigits : 9 - (left + 1) + 1 = 9 - left := by omega
        have hvalue : valueAt (b :: bs) 0 (if 1 < digitAt bs left then left + 1 else left + 1 + 1) =
            b.toNat % 128 +
              128 * valueAt bs 0 (if 1 < digitAt bs left then left else left + 1) := by
          split <;> rw [valueAt_cons_succ]
        rw [scanFrom_more (by omega) (by omega), hdigits, Outcome.cons_eq_overflow_iff, hvalue]
        simp only [ih (by omega)]
        constructor
        · rintro ⟨m, ⟨hcontinues, htenth, rfl⟩, rfl⟩
          exact ⟨⟨by omega, hcontinues⟩, htenth, rfl⟩
        · rintro ⟨⟨-, hcontinues⟩, htenth, rfl⟩
          exact ⟨_, ⟨hcontinues, htenth, rfl⟩, rfl⟩

theorem scan_eq_overflow_iff (bs : Bytes) {n : Nat} :
    (scan bs).outcome = .overflow n ↔
      OverflowsAt bs 0 ∧ n = valueAt bs 0 (if 1 < digitAt bs 9 then 9 else 10) := by
  rw [overflowsAt_iff, and_assoc]
  simpa [scan] using scanFrom_eq_overflow_iff (Nat.le_refl 9)

/-! ## Where the input ends -/

/-- A number that is cut off takes all bytes that there are. -/
theorem scanFrom_of_cut {digits : Nat} {bs : Bytes} (h : (scanFrom digits bs).outcome = .cut) :
    scanFrom digits bs = ⟨.cut, bs.length, []⟩ := by
  fun_induction scanFrom digits bs with
  | case1 => rfl
  | case2 => cases h
  | case3 => cases h
  | case4 digits b rest _ _ _ tail ih =>
    have htail : tail = ⟨.cut, rest.length, []⟩ := ih (Outcome.cons_eq_cut_iff.mp h)
    rw [htail]
    rfl

theorem scanFrom_width_le {digits : Nat} (hdigits : digits ≤ 10) (bs : Bytes) :
    digits + (scanFrom digits bs).width ≤ 11 := by
  fun_induction scanFrom digits bs with
  | case1 => exact Nat.le_succ_of_le hdigits
  | case2 => exact Nat.succ_le_succ hdigits
  | case3 => exact Nat.succ_le_succ hdigits
  | case4 digits b rest _ hfits _ tail ih =>
    have htail : digits + 1 + tail.width ≤ 11 := ih (by omega)
    simp only
    omega

end ShardedRecords.Base128
