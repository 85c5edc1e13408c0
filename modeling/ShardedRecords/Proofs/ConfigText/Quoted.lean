import ShardedRecords.ConfigText.Quoted
import ShardedRecords.Proofs.ConfigText.Grammar

/-!
# Reading quoted texts

Up to the closing quote a text is read as what it spells, escapes, pairs of halves and all, and
what spells nothing is refused. What is written is one of the spellings.
-/
namespace ShardedRecords.ConfigText

variable {cs front rest : List Char} {ps : List Piece}

/-! ## Hexadecimal digits -/

theorem hexValue?_eq_some_iff {c : Char} {d : Nat} : hexValue? c = some d ↔ HexDigit c d := by
  constructor
  · intro h
    have hsmall : c.toNat < 103 := by
      unfold hexValue? at h
      simp only [Char.le_def, UInt32.le_iff_toNat_le] at h
      have hvalue : c.val.toNat = c.toNat := rfl
      split at h
      · rename_i hrange
        have hnine : '9'.val.toNat = 57 := rfl
        omega
      split at h
      · rename_i hrange
        have hf : 'f'.val.toNat = 102 := rfl
        omega
      split at h
      · rename_i hrange
        have hf : 'F'.val.toNat = 70 := rfl
        omega
      · cases h
    have hall : ∀ n < 103, ∀ d ∈ hexValue? (Char.ofNat n), HexDigit (Char.ofNat n) d := by decide
    have hc := hall c.toNat hsmall d
    simp only [Char.ofNat_toNat] at hc
    exact hc h
  · have hdigits : ∀ d < 16, hexValue? (Nat.digitChar d) = some d ∧
        hexValue? (Nat.digitChar d).toUpper = some d := by decide
    rintro ⟨hd, rfl | rfl⟩
    · exact (hdigits d hd).1
    · exact (hdigits d hd).2

theorem SpellsUnit.lt {digits : List Char} {n : Nat} (h : SpellsUnit digits n) : n < 0x10000 := by
  obtain ⟨⟨ha, -⟩, ⟨hb, -⟩, ⟨hc, -⟩, ⟨hd, -⟩⟩ := h
  omega

theorem unit?_eq_some_iff {a b c d : Char} {p : Piece} :
    unit? a b c d = some p ↔ ∃ n, SpellsUnit [a, b, c, d] n ∧ p = .unit n := by
  simp only [unit?, Option.bind_eq_bind, Option.bind_eq_some_iff, hexValue?_eq_some_iff]
  constructor
  · rintro ⟨w, ha, x, hb, y, hc, z, hd, h⟩
    cases h
    exact ⟨_, .digits ha hb hc hd, rfl⟩
  · rintro ⟨n, ⟨ha, hb, hc, hd⟩, rfl⟩
    exact ⟨_, ha, _, hb, _, hc, _, hd, rfl⟩

/-! ## Pieces -/

theorem escaped?_eq_some_iff {l c : Char} : escaped? l = some c ↔ (l, c) ∈ escapeLetters := by
  constructor
  · intro h
    unfold escaped? at h
    split at h <;> cases h <;> decide
  · have hletters : ∀ e ∈ escapeLetters, escaped? e.1 = some e.2 := by decide
    intro h
    exact hletters (l, c) h

inductive SpellsPiece : List Char → Piece → Prop
  | plain {c : Char} (hquote : c ≠ '"') (hbackslash : c ≠ '\\') (hcontrol : 32 ≤ c.toNat) :
      SpellsPiece [c] (.char c)
  | letter {l c : Char} (h : (l, c) ∈ escapeLetters) : SpellsPiece ['\\', l] (.char c)
  | unit {digits : List Char} {n : Nat} (h : SpellsUnit digits n) :
      SpellsPiece ('\\' :: 'u' :: digits) (.unit n)

/-- A piece is read off, whatever text comes behind it. -/
theorem SpellsPiece.pieces {p : Piece} (h : SpellsPiece front p) (rest : List Char) :
    pieces (front ++ rest) = (pieces rest).map fun (ps, rest) => (p :: ps, rest) := by
  cases h with
  | @plain c hquote hbackslash hcontrol =>
    have hfree : isControl c = false := by
      simpa [isControl] using hcontrol
    rw [List.singleton_append, ConfigText.pieces]
    · simp only [hfree]
      cases ConfigText.pieces rest <;> rfl
    · exact hquote
    · intro a b d e rest' h
      exact absurd h hbackslash
    · intro c' rest' h
      exact absurd h hbackslash
  | @letter l c h =>
    have hletters : ∀ e ∈ escapeLetters, e.1 ≠ 'u' := by decide
    rw [List.cons_append, List.singleton_append, ConfigText.pieces]
    · simp only [escaped?_eq_some_iff.mpr h]
      cases ConfigText.pieces rest <;> rfl
    · intro a b d e rest' hu
      exact absurd hu (hletters (l, c) h)
  | @unit digits n h =>
    obtain ⟨ha, hb, hc, hd⟩ := h
    have hunit := unit?_eq_some_iff.mpr ⟨_, SpellsUnit.digits ha hb hc hd, rfl⟩
    simp only [List.cons_append, List.nil_append, ConfigText.pieces, hunit]
    cases ConfigText.pieces rest <;> rfl

inductive SpellsPieces : List Char → List Piece → Prop
  | nil : SpellsPieces [] []
  | cons {front cs : List Char} {p : Piece} {ps : List Piece} (hp : SpellsPiece front p)
      (h : SpellsPieces cs ps) : SpellsPieces (front ++ cs) (p :: ps)

theorem SpellsPieces.append {front' : List Char} {ps' : List Piece} (h : SpellsPieces front ps)
    (h' : SpellsPieces front' ps') : SpellsPieces (front ++ front') (ps ++ ps') := by
  induction h with
  | nil => exact h'
  | cons hp _ ih =>
    rw [List.append_assoc]
    exact .cons hp ih

theorem SpellsPiece.single {p : Piece} (h : SpellsPiece front p) : SpellsPieces front [p] := by
  have hone := SpellsPieces.cons h .nil
  rwa [List.append_nil] at hone

/-- The pieces go up to a quote, and are all that is in front of it. -/
theorem pieces_eq_some_iff : pieces cs = some (ps, rest) ↔
    ∃ front, cs = front ++ '"' :: rest ∧ SpellsPieces front ps := by
  constructor
  · intro h
    have more {front cs' : List Char} {p : Piece} {others : List Piece} (hp : SpellsPiece front p)
        (ih : ∃ front, cs' = front ++ '"' :: rest ∧ SpellsPieces front others) :
        ∃ front', front ++ cs' = front' ++ '"' :: rest ∧ SpellsPieces front' (p :: others) := by
      obtain ⟨front', rfl, hothers⟩ := ih
      exact ⟨_, (List.append_assoc ..).symm, .cons hp hothers⟩
    fun_induction pieces cs generalizing ps with
    | case1 => cases h
    | case2 tail =>
      cases h
      exact ⟨[], rfl, .nil⟩
    | case3 a b c d tail ih =>
      simp only [Option.bind_eq_bind, Option.bind_eq_some_iff] at h
      obtain ⟨p, hp, ⟨others, _⟩, htail, he⟩ := h
      cases he
      obtain ⟨n, hunit, rfl⟩ := unit?_eq_some_iff.mp hp
      exact more (.unit hunit) (ih htail)
    | case4 l tail _ ih =>
      simp only [Option.bind_eq_bind, Option.bind_eq_some_iff] at h
      obtain ⟨c, hc, ⟨others, _⟩, htail, he⟩ := h
      cases he
      exact more (.letter (escaped?_eq_some_iff.mp hc)) (ih htail)
    | case5 => cases h
    | case6 c tail hquote _ hletter hcontrol ih =>
      simp only [Option.bind_eq_bind, Option.bind_eq_some_iff] at h
      obtain ⟨⟨others, _⟩, htail, he⟩ := h
      cases he
      -- A backslash at the very end has nothing behind it, not even the closing quote.
      have hbackslash : c ≠ '\\' := by
        rintro rfl
        cases tail with
        | nil => cases htail
        | cons l tail => exact hletter l tail rfl rfl
      have hplain : 32 ≤ c.toNat := by
        simpa [isControl] using hcontrol
      exact more (.plain hquote hbackslash hplain) (ih htail)
  · rintro ⟨front, rfl, h⟩
    induction h with
    | nil => simp [pieces]
    | cons hp _ ih =>
      rw [List.append_assoc, hp.pieces, ih]
      rfl

/-! ## Characters -/

/-- What pieces come to, whatever pieces come behind them. -/
def JoinsTo (ps : List Piece) (c : Char) : Prop :=
  ∀ others, characters (ps ++ others) = (c :: ·) <$> characters others

theorem joinsTo_char (c : Char) : JoinsTo [.char c] c := fun _ => rfl

/-- A unit that is the number of a character is no half of a pair. -/
theorem joinsTo_unit {c : Char} (hc : c.toNat < 0x10000) : JoinsTo [.unit c.toNat] c := by
  have hvalid : c.toNat < 0xD800 ∨ 0xDFFF < c.toNat := by
    rcases c.valid with h | h
    · exact .inl h
    · exact .inr h.1
  have hhigh : isHighHalf c.toNat = false := by
    simp only [isHighHalf, Bool.and_eq_false_iff, decide_eq_false_iff_not]
    omega
  have hlow : isLowHalf c.toNat = false := by
    simp only [isLowHalf, Bool.and_eq_false_iff, decide_eq_false_iff_not]
    omega
  intro others
  rcases others with _ | ⟨_ | low, others⟩ <;>
    simp [characters, hhigh, hlow]

theorem joinsTo_pair {c : Char} (hc : 0x10000 ≤ c.toNat) :
    JoinsTo [.unit (0xD800 + (c.toNat - 0x10000) / 0x400),
      .unit (0xDC00 + (c.toNat - 0x10000) % 0x400)] c := by
  have hvalid : c.toNat < 0x110000 := by
    rcases c.valid with h | h
    · exact Nat.lt_trans h (by decide)
    · exact h.2
  have hhigh : isHighHalf (0xD800 + (c.toNat - 0x10000) / 0x400) = true := by
    simp only [isHighHalf, Bool.and_eq_true, decide_eq_true_eq]
    omega
  have hlow : isLowHalf (0xDC00 + (c.toNat - 0x10000) % 0x400) = true := by
    simp only [isLowHalf, Bool.and_eq_true, decide_eq_true_eq]
    omega
  have hjoined : 0x10000 + (0xD800 + (c.toNat - 0x10000) / 0x400 - 0xD800) * 0x400 +
      (0xDC00 + (c.toNat - 0x10000) % 0x400 - 0xDC00) = c.toNat := by
    omega
  intro others
  simp only [List.cons_append, List.nil_append, characters, hhigh, hlow, if_true, hjoined,
    Char.ofNat_toNat]

theorem SpellsChar.exists_pieces {c : Char} (h : SpellsChar front c) :
    ∃ ps, SpellsPieces front ps ∧ JoinsTo ps c := by
  cases h with
  | plain hquote hbackslash hcontrol =>
    exact ⟨_, (SpellsPiece.plain hquote hbackslash hcontrol).single, joinsTo_char c⟩
  | letter h => exact ⟨_, (SpellsPiece.letter h).single, joinsTo_char c⟩
  | unit h => exact ⟨_, (SpellsPiece.unit h).single, joinsTo_unit h.lt⟩
  | pair hc hhigh hlow =>
    have hpieces := (SpellsPiece.unit hhigh).single.append (SpellsPiece.unit hlow).single
    exact ⟨_, hpieces, joinsTo_pair hc⟩

theorem SpellsPiece.spellsChar {c : Char} (h : SpellsPiece front (.char c)) :
    SpellsChar front c := by
  cases h with
  | plain hquote hbackslash hcontrol => exact .plain hquote hbackslash hcontrol
  | letter h => exact .letter h

theorem SpellsPiece.spellsUnit {n : Nat} (h : SpellsPiece front (.unit n)) :
    ∃ digits, front = '\\' :: 'u' :: digits ∧ SpellsUnit digits n := by
  cases h with
  | unit h => exact ⟨_, rfl, h⟩

theorem isHighHalf_iff {n : Nat} : isHighHalf n = true ↔ 0xD800 ≤ n ∧ n < 0xDC00 := by
  simp [isHighHalf]

theorem isLowHalf_iff {n : Nat} : isLowHalf n = true ↔ 0xDC00 ≤ n ∧ n < 0xE000 := by
  simp [isLowHalf]

theorem toNat_ofNat_of_isValidChar {n : Nat} (h : n.isValidChar) : (Char.ofNat n).toNat = n := by
  rw [Char.ofNat, dif_pos h]
  rfl

/-- A unit that is no half of a pair is a character. -/
theorem SpellsUnit.spellsChar {digits : List Char} {n : Nat} (h : SpellsUnit digits n)
    (hhigh : ¬isHighHalf n = true) (hlow : ¬isLowHalf n = true) :
    SpellsChar ('\\' :: 'u' :: digits) (Char.ofNat n) := by
  have hlt := h.lt
  have hvalid : n.isValidChar := by
    rw [isHighHalf_iff] at hhigh
    rw [isLowHalf_iff] at hlow
    unfold Nat.isValidChar
    omega
  have heq := toNat_ofNat_of_isValidChar hvalid
  rw [← heq] at h
  exact .unit h

theorem SpellsUnit.spellsChar_pair {digits digits' : List Char} {n n' : Nat}
    (h : SpellsUnit digits n) (h' : SpellsUnit digits' n') (hhigh : isHighHalf n = true)
    (hlow : isLowHalf n' = true) :
    SpellsChar ('\\' :: 'u' :: digits ++ '\\' :: 'u' :: digits')
      (Char.ofNat (0x10000 + (n - 0xD800) * 0x400 + (n' - 0xDC00))) := by
  rw [isHighHalf_iff] at hhigh
  rw [isLowHalf_iff] at hlow
  generalize hm : 0x10000 + (n - 0xD800) * 0x400 + (n' - 0xDC00) = m
  have hvalid : m.isValidChar := by
    unfold Nat.isValidChar
    omega
  have heq := toNat_ofNat_of_isValidChar hvalid
  have hn : n = 0xD800 + (m - 0x10000) / 0x400 := by omega
  have hn' : n' = 0xDC00 + (m - 0x10000) % 0x400 := by omega
  rw [hn, ← heq] at h
  rw [hn', ← heq] at h'
  refine .pair ?_ h h'
  omega

/-- Pieces that join to characters were read from a text that spells them. -/
theorem SpellsPieces.spellsText {s : List Char} (h : SpellsPieces cs ps)
    (hs : characters ps = some s) : SpellsText cs s := by
  fun_induction characters ps generalizing cs s with
  | case1 =>
    cases hs
    cases h
    exact .nil
  | case2 c ps ih =>
    obtain ⟨s', hs', rfl⟩ := Option.map_eq_some_iff.mp hs
    cases h with
    | cons hp h => exact .cons hp.spellsChar (ih h hs')
  | case3 high low ps hhigh hlow ih =>
    obtain ⟨s', hs', rfl⟩ := Option.map_eq_some_iff.mp hs
    cases h with
    | cons hp h =>
      cases h with
      | cons hp' h =>
        obtain ⟨digits, rfl, hunit⟩ := hp.spellsUnit
        obtain ⟨digits', rfl, hunit'⟩ := hp'.spellsUnit
        rw [← List.append_assoc]
        exact .cons (hunit.spellsChar_pair hunit' hhigh hlow) (ih h hs')
  | case4 => cases hs
  | case5 => cases hs
  | case6 high low ps hhigh hlow ih =>
    obtain ⟨s', hs', rfl⟩ := Option.map_eq_some_iff.mp hs
    cases h with
    | cons hp h =>
      obtain ⟨digits, rfl, hunit⟩ := hp.spellsUnit
      exact .cons (hunit.spellsChar hhigh hlow) (ih h hs')
  | case7 => cases hs
  | case8 n ps _ hhalf ih =>
    obtain ⟨s', hs', rfl⟩ := Option.map_eq_some_iff.mp hs
    cases h with
    | cons hp h =>
      obtain ⟨digits, rfl, hunit⟩ := hp.spellsUnit
      rw [Bool.or_eq_true, not_or] at hhalf
      exact .cons (hunit.spellsChar hhalf.1 hhalf.2) (ih h hs')

/-! ## Texts -/

theorem SpellsText.exists_pieces {s : List Char} (h : SpellsText cs s) :
    ∃ ps, SpellsPieces cs ps ∧ characters ps = some s := by
  induction h with
  | nil => exact ⟨[], .nil, rfl⟩
  | cons hc _ ih =>
    obtain ⟨ps, hps, hjoins⟩ := hc.exists_pieces
    obtain ⟨others, hothers, hs⟩ := ih
    refine ⟨ps ++ others, hps.append hothers, ?_⟩
    rw [hjoins, hs]
    rfl

/-- A text is read up to its closing quote exactly if it spells something. -/
theorem unquote_eq_some_iff {s : String} : unquote cs = some (s, rest) ↔
    ∃ front, cs = front ++ '"' :: rest ∧ SpellsText front s.toList := by
  simp only [unquote, Option.bind_eq_bind, Option.bind_eq_some_iff]
  constructor
  · rintro ⟨⟨ps, rest'⟩, hps, s', hs, he⟩
    cases he
    obtain ⟨front, heq, hfront⟩ := pieces_eq_some_iff.mp hps
    rw [String.toList_ofList]
    exact ⟨front, heq, hfront.spellsText hs⟩
  · rintro ⟨front, heq, hfront⟩
    obtain ⟨ps, hps, hs⟩ := hfront.exists_pieces
    have hread := pieces_eq_some_iff.mpr ⟨front, heq, hps⟩
    refine ⟨(ps, rest), hread, s.toList, hs, ?_⟩
    rw [String.ofList_toList]
    rfl

theorem hexDigit_hexDigit {n : Nat} (hn : n < 16) : HexDigit (hexDigit n) n := by
  have hdigits : ∀ n < 16, hexDigit n = Nat.digitChar n := by decide
  exact ⟨hn, .inl (hdigits n hn)⟩

theorem spellsChar_escape (c : Char) : SpellsChar (escape c) c := by
  unfold escape
  split
  · subst c
    exact .letter (by decide)
  split
  · subst c
    exact .letter (by decide)
  split
  · rename_i hcontrol
    have hlt : c.toNat < 32 := by simpa [isControl] using hcontrol
    have hzero : HexDigit '0' 0 := ⟨by decide, .inl rfl⟩
    have h : SpellsUnit ['0', '0', hexDigit (c.toNat / 16), hexDigit (c.toNat % 16)]
        (((0 * 16 + 0) * 16 + c.toNat / 16) * 16 + c.toNat % 16) :=
      .digits hzero hzero (hexDigit_hexDigit (by omega)) (hexDigit_hexDigit (by omega))
    have hvalue : ((0 * 16 + 0) * 16 + c.toNat / 16) * 16 + c.toNat % 16 = c.toNat := by omega
    rw [hvalue] at h
    exact .unit h
  · rename_i hquote hbackslash hcontrol
    exact .plain hquote hbackslash (by simpa [isControl] using hcontrol)

/-- What is written between quotes spells the text. -/
theorem spellsText_flatMap_escape (s : List Char) : SpellsText (s.flatMap escape) s := by
  induction s with
  | nil => exact .nil
  | cons c s ih =>
    rw [List.flatMap_cons]
    exact .cons (spellsChar_escape c) ih

end ShardedRecords.ConfigText
