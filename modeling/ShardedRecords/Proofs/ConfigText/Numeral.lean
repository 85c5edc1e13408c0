import ShardedRecords.ConfigText.Token
import ShardedRecords.Proofs.ConfigText.Grammar

/-!
# Recognizing numerals

A numeral is recognized by its parts, each of which is a run of digits or begins with one of a
few marks. No part can go on into the next.
-/
namespace ShardedRecords.ConfigText

variable {cs rest : List Char}

/-! ## Runs -/

/-- A text that a run of such characters in front of it does not go on into. -/
def Stops (p : Char → Bool) (rest : List Char) : Prop := ∀ c ∈ rest.head?, p c = false

/-- A run is found as it is. -/
theorem takeWhile_dropWhile_run {p : Char → Bool} (hcs : ∀ c ∈ cs, p c = true)
    (hrest : Stops p rest) : (cs ++ rest).takeWhile p = cs ∧ (cs ++ rest).dropWhile p = rest := by
  rw [List.takeWhile_append_of_pos hcs, List.dropWhile_append_of_pos hcs]
  cases rest with
  | nil => simp
  | cons c rest =>
    have hc : p c = false := hrest c rfl
    simp [hc]

/-! ## Parts of numerals -/

theorem isDigits_iff : isDigits cs = true ↔ Digits cs := by
  simp [isDigits, Digits]

theorem isWhole_iff : isWhole cs = true ↔ Whole cs := by
  simp only [isWhole, Bool.or_eq_true, Bool.and_eq_true, decide_eq_true_eq, bne_iff_ne,
    isDigits_iff]
  constructor
  · rintro (rfl | ⟨h, hfront⟩)
    · exact .zero
    · exact .digits h hfront
  · intro h
    cases h with
    | zero => exact .inl rfl
    | digits h hfront => exact .inr ⟨h, hfront⟩

theorem Whole.isDigits (h : Whole cs) : Digits cs := by
  cases h with
  | zero => simp [Digits]
  | digits h _ => exact h

theorem exists_dropSign (signs : List Char) (cs : List Char) :
    ∃ sign, (sign = [] ∨ ∃ c ∈ signs, sign = [c]) ∧ cs = sign ++ dropSign signs cs := by
  cases cs with
  | nil => exact ⟨[], .inl rfl, rfl⟩
  | cons c cs =>
    by_cases hc : c ∈ signs
    · exact ⟨[c], .inr ⟨c, hc, rfl⟩, by simp [dropSign, hc]⟩
    · exact ⟨[], .inl rfl, by simp [dropSign, hc]⟩

theorem dropSign_append {signs sign : List Char} (hsign : sign = [] ∨ ∃ c ∈ signs, sign = [c])
    (hcs : ∀ c ∈ cs.head?, c ∉ signs) : dropSign signs (sign ++ cs) = cs := by
  rcases hsign with rfl | ⟨c, hc, rfl⟩
  · cases cs with
    | nil => rfl
    | cons c cs => simp [dropSign, hcs c rfl]
  · simp [dropSign, hc]

theorem Digits.head?_isDigit {ds : List Char} (h : Digits ds) (rest : List Char) :
    ∀ c ∈ (ds ++ rest).head?, c.isDigit = true := by
  cases ds with
  | nil => exact absurd rfl h.1
  | cons d ds =>
    intro c hc
    cases hc
    exact h.2 d List.mem_cons_self

theorem isExponent_iff : isExponent cs = true ↔ Exponent cs := by
  constructor
  · intro h
    cases cs with
    | nil => exact .none
    | cons c cs =>
      simp only [isExponent, Bool.and_eq_true, Bool.or_eq_true, decide_eq_true_eq,
        isDigits_iff] at h
      obtain ⟨sign, hsign, heq⟩ := exists_dropSign ['+', '-'] cs
      have hparts : Exponent (c :: sign ++ dropSign ['+', '-'] cs) := by
        apply Exponent.digits h.1 _ h.2
        simpa using hsign
      rwa [List.cons_append, ← heq] at hparts
  · intro h
    cases h with
    | none => rfl
    | @digits e sign ds he hsign hds =>
      have hdrop : dropSign ['+', '-'] (sign ++ ds) = ds := by
        apply dropSign_append
        · simpa using hsign
        · intro c hc
          have hdigit := hds.head?_isDigit [] c (by simpa using hc)
          simp only [List.mem_cons, List.not_mem_nil, or_false, not_or]
          constructor <;> rintro rfl <;> cases hdigit
      simp only [List.cons_append, isExponent, Bool.and_eq_true, Bool.or_eq_true,
        decide_eq_true_eq, isDigits_iff, hdrop]
      exact ⟨he, hds⟩

theorem Exponent.stops (h : Exponent cs) : Stops Char.isDigit cs := by
  intro c hc
  cases h with
  | none => cases hc
  | digits he _ _ =>
    cases hc
    rcases he with rfl | rfl <;> rfl

theorem isTail_iff : isTail cs = true ↔
    ∃ fraction exponent, Fraction fraction ∧ Exponent exponent ∧ cs = fraction ++ exponent := by
  constructor
  · intro h
    unfold isTail at h
    split at h
    · rename_i tail
      simp only [Bool.and_eq_true, isDigits_iff, isExponent_iff] at h
      refine ⟨_, _, .digits h.1, h.2, ?_⟩
      simp
    · exact ⟨[], cs, .none, isExponent_iff.mp h, rfl⟩
  · rintro ⟨fraction, exponent, hfraction, hexponent, rfl⟩
    cases hfraction with
    | none =>
      have hpoint : ∀ cs, exponent ≠ '.' :: cs := by
        rintro cs rfl
        cases hexponent with
        | digits he => rcases he with he | he <;> cases he
      rw [List.nil_append, isTail]
      · exact isExponent_iff.mpr hexponent
      · exact hpoint
    | digits hds =>
      obtain ⟨htake, hdrop⟩ := takeWhile_dropWhile_run hds.2 hexponent.stops
      simp only [List.cons_append, isTail, htake, hdrop, Bool.and_eq_true, isDigits_iff,
        isExponent_iff]
      exact ⟨hds, hexponent⟩

/-- What is taken for a numeral is one of the grammar. -/
theorem isNumeral_iff : isNumeral cs = true ↔ Numeral cs := by
  simp only [isNumeral, Bool.and_eq_true, isWhole_iff, isTail_iff]
  constructor
  · rintro ⟨hwhole, fraction, exponent, hfraction, hexponent, htail⟩
    obtain ⟨sign, hsign, heq⟩ := exists_dropSign ['-'] cs
    rw [heq, ← List.takeWhile_append_dropWhile (p := Char.isDigit) (l := dropSign ['-'] cs), htail]
    exact .parts (by simpa using hsign) hwhole hfraction hexponent
  · rintro ⟨hsign, hwhole, hfraction, hexponent⟩
    rename_i sign whole fraction exponent
    have hdrop : dropSign ['-'] (sign ++ (whole ++ (fraction ++ exponent))) =
        whole ++ (fraction ++ exponent) := by
      apply dropSign_append
      · simpa using hsign
      · intro c hc
        have hdigit := hwhole.isDigits.head?_isDigit _ c hc
        rw [List.mem_singleton]
        rintro rfl
        cases hdigit
    have hstop : Stops Char.isDigit (fraction ++ exponent) := by
      cases hfraction with
      | none => exact hexponent.stops
      | digits _ =>
        intro c hc
        cases hc
        rfl
    obtain ⟨htake, hrest⟩ := takeWhile_dropWhile_run hwhole.isDigits.2 hstop
    rw [hdrop, htake, hrest]
    exact ⟨hwhole, fraction, exponent, hfraction, hexponent, rfl⟩

end ShardedRecords.ConfigText
