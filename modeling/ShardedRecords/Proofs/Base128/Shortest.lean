import ShardedRecords.Proofs.Base128

/-!
# The shortest spelling

A number has many spellings in base 128, since zero digits may stand behind its own. The
writer's is the shortest of them, and the only one of its length; all others are padded.
-/
namespace ShardedRecords

namespace Bytes

/-- The same bytes, or fewer. -/
def EqOrShorter (a b : Bytes) : Prop := a = b ∨ a.length < b.length

namespace EqOrShorter

variable {a b a' b' : Bytes}

theorem refl (a : Bytes) : a.EqOrShorter a := .inl rfl

theorem length_le (h : a.EqOrShorter b) : a.length ≤ b.length := by
  rcases h with rfl | hlt
  · exact Nat.le_refl _
  · exact Nat.le_of_lt hlt

theorem eq_of_length_le (h : a.EqOrShorter b) (hle : b.length ≤ a.length) : a = b := by
  rcases h with heq | hlt
  · exact heq
  · omega

/-- Of two parts it is enough that one is shorter. -/
theorem append (h : a.EqOrShorter b) (h' : a'.EqOrShorter b') :
    (a ++ a').EqOrShorter (b ++ b') := by
  by_cases hlength : (b ++ b').length ≤ (a ++ a').length
  · have hle := h.length_le
    have hle' := h'.length_le
    simp only [List.length_append] at hlength
    left
    rw [h.eq_of_length_le (by omega), h'.eq_of_length_le (by omega)]
  · right
    omega

end EqOrShorter

end Bytes

namespace Base128

/-- Behind its last digit a number has nothing but zeros. -/
theorem Spells.getLast?_of_zero {bs : Bytes} (h : Spells bs 0) : bs.getLast? = some 0 := by
  generalize hn : 0 = n at h
  induction h with
  | @last b hb =>
    have hbyte : b = 0 := UInt8.toNat_inj.mp hn.symm
    simp [hbyte]
  | @more b bs n hb h ih =>
    have hne : bs ≠ [] := List.ne_nil_of_length_pos h.length_pos
    rw [List.getLast?_cons_of_ne_nil hne]
    apply ih
    omega

theorem Spells.one_lt_length {bs : Bytes} {n : Nat} (h : Spells bs n) (hn : n ≠ 0)
    (hlast : bs.getLast? = some 0) : 1 < bs.length := by
  cases h with
  | @last b hb =>
    have hbyte : b = 0 := by simpa using hlast
    simp [hbyte] at hn
  | more hb h =>
    have hpos := h.length_pos
    simp only [List.length_cons]
    omega

theorem spell_of_lt {n : Nat} (h : n < 128) : spell n = [UInt8.ofNat n] := by
  unfold spell
  rw [if_pos h]

theorem spell_digit_add {b : UInt8} {n : Nat} (hb : 128 ≤ b.toNat) (hn : n ≠ 0) :
    spell (b.toNat % 128 + 128 * n) = b :: spell n := by
  have hbyte : b.toNat < 256 := b.toNat_lt
  have hdigit : UInt8.ofNat ((b.toNat % 128 + 128 * n) % 128 + 128) = b := by
    apply UInt8.toNat_inj.mp
    rw [UInt8.toNat_ofNat']
    omega
  have hrest : (b.toNat % 128 + 128 * n) / 128 = n := by omega
  rw [spell, if_neg (by omega), hdigit, hrest]

/-- The writer's spelling is any other spelling of the number itself, or is shorter. -/
theorem Spells.spell_eqOrShorter {bs : Bytes} {n : Nat} (h : Spells bs n) :
    (spell n).EqOrShorter bs := by
  induction h with
  | @last b hb =>
    left
    simp [spell_of_lt hb]
  | @more b bs n hb h ih =>
    by_cases hn : n = 0
    · have hpos := h.length_pos
      right
      rw [hn, spell_of_lt (by omega)]
      simp only [List.length_cons, List.length_nil]
      omega
    · rw [spell_digit_add hb hn]
      exact (Bytes.EqOrShorter.refl [b]).append ih

/-- No spelling of the number has fewer bytes. -/
def Shortest (bs : Bytes) (n : Nat) : Prop := ∀ bs', Spells bs' n → bs.length ≤ bs'.length

theorem Spells.shortest_iff {bs : Bytes} {n : Nat} (h : Spells bs n) :
    Shortest bs n ↔ bs = spell n := by
  constructor
  · intro hshortest
    exact (h.spell_eqOrShorter.eq_of_length_le (hshortest _ (spells_spell n))).symm
  · rintro rfl bs' h'
    exact h'.spell_eqOrShorter.length_le

/-- A zero digit stands behind another digit at the end. -/
def Padded (bs : Bytes) : Prop := 1 < bs.length ∧ bs.getLast? = some 0

theorem Spells.not_padded_iff {bs : Bytes} {n : Nat} (h : Spells bs n) :
    ¬Padded bs ↔ bs = spell n := by
  unfold Padded
  induction h with
  | @last b hb => simp [spell_of_lt hb]
  | @more b bs n hb h ih =>
    have hne : bs ≠ [] := List.ne_nil_of_length_pos h.length_pos
    have hpos := h.length_pos
    simp only [List.length_cons, List.getLast?_cons_of_ne_nil hne]
    by_cases hn : n = 0
    · -- All digits but the first are zeros, and the shortest spelling has only the first.
      subst hn
      have hzero := h.getLast?_of_zero
      rw [spell_of_lt (by omega)]
      simp [hzero, hpos, hne]
    · have hmore : bs.getLast? = some 0 → 1 < bs.length := h.one_lt_length hn
      simp only [spell_digit_add hb hn, List.cons_inj_right, ← ih]
      constructor
      · exact fun hpadded hrest => hpadded ⟨by omega, hrest.2⟩
      · exact fun hrest hpadded => hrest ⟨hmore hpadded.2, hpadded.2⟩

end Base128

end ShardedRecords
