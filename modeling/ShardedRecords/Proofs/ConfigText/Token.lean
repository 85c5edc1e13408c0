import ShardedRecords.ConfigText.Json
import ShardedRecords.Proofs.ConfigText.Numeral
import ShardedRecords.Proofs.ConfigText.Quoted

/-!
# Scanning JSON

A text that spells a value has the tokens of the value, wherever blanks stand in it. The other
way round, a text that has tokens is made of what spells each of them, in their order, and of
blanks.
-/
namespace ShardedRecords.ConfigText

variable {cs cs' rest : List Char}

/-! ## Words -/

theorem isWordChar_of_isDigit {c : Char} (h : c.isDigit = true) : isWordChar c = true := by
  simp [isWordChar, Char.isAlphanum, h]

theorem Fraction.forall_isWordChar (h : Fraction cs) : ∀ c ∈ cs, isWordChar c = true := by
  cases h with
  | none => simp
  | digits hds =>
    rw [List.forall_mem_cons]
    exact ⟨rfl, fun c hc => isWordChar_of_isDigit (hds.2 c hc)⟩

theorem Exponent.forall_isWordChar (h : Exponent cs) : ∀ c ∈ cs, isWordChar c = true := by
  cases h with
  | none => simp
  | digits he hsign hds =>
    rw [List.cons_append, List.forall_mem_cons, List.forall_mem_append]
    constructor
    · rcases he with rfl | rfl <;> rfl
    constructor
    · rcases hsign with rfl | rfl | rfl <;> simp [isWordChar]
    · exact fun c hc => isWordChar_of_isDigit (hds.2 c hc)

theorem Numeral.forall_isWordChar (h : Numeral cs) : ∀ c ∈ cs, isWordChar c = true := by
  obtain ⟨hsign, hwhole, hfraction, hexponent⟩ := h
  simp only [List.forall_mem_append]
  constructor
  · rcases hsign with rfl | rfl <;> simp [isWordChar]
  constructor
  · exact fun c hc => isWordChar_of_isDigit (hwhole.isDigits.2 c hc)
  · exact ⟨hfraction.forall_isWordChar, hexponent.forall_isWordChar⟩

/-- No literal name is a numeral. -/
theorem ofWord?_of_numeral (h : Numeral cs) : ofWord? cs = some (.number cs) := by
  have hnumeral := isNumeral_iff.mpr h
  have hne (name : List Char) (hname : isNumeral name = false) : cs ≠ name := by
    rintro rfl
    rw [hnumeral] at hname
    cases hname
  have hnull := hne ['n', 'u', 'l', 'l'] (by decide)
  have htrue := hne ['t', 'r', 'u', 'e'] (by decide)
  have hfalse := hne ['f', 'a', 'l', 's', 'e'] (by decide)
  simp only [ofWord?, hnull, htrue, hfalse, hnumeral, if_false, if_true]

/-- The characters of words stand for nothing else. -/
theorem of_isWordChar {c : Char} (h : isWordChar c = true) :
    isBlank c = false ∧ c ≠ '"' ∧ punctuation? c = none := by
  constructor
  · rw [Bool.eq_false_iff]
    intro hblank
    simp only [isBlank, Bool.or_eq_true, decide_eq_true_eq] at hblank
    rcases hblank with ((rfl | rfl) | rfl) | rfl <;> cases h
  constructor
  · rintro rfl
    cases h
  · unfold punctuation?
    split <;> first | rfl | cases h

/-! ## Single tokens -/

/-- What spells a token: a mark, or a value that is a single token. -/
def Token.Spelled (cs : List Char) : Token → Prop
  | .null => Spells cs (.value .null)
  | .boolean b => Spells cs (.value (.boolean b))
  | .number numeral => Spells cs (.value (.number numeral))
  | .text s => Spells cs (.value (.text s))
  | t => cs = t.chars

namespace Token

variable {c : Char} {t : Token}

theorem spelled_of_punctuation? (h : punctuation? c = some t) : t.Spelled [c] := by
  unfold punctuation? at h
  split at h <;> cases h <;> rfl

theorem spelled_of_ofWord? (h : ofWord? cs = some t) : t.Spelled cs := by
  unfold ofWord? at h
  split at h
  · subst cs
    cases h
    exact .null
  split at h
  · subst cs
    cases h
    exact .true
  split at h
  · subst cs
    cases h
    exact .false
  split at h
  · rename_i hnumeral
    cases h
    exact .number (isNumeral_iff.mp hnumeral)
  · cases h

/-- The token at the front is spelled by what is in front of the rest. -/
theorem exists_spelled_of_next? (h : next? cs = some (t, rest)) :
    ∃ front, cs = front ++ rest ∧ t.Spelled front := by
  unfold next? at h
  split at h
  · cases h
  · rename_i tail
    obtain ⟨⟨s, tail'⟩, hquote, he⟩ := Option.map_eq_some_iff.mp h
    cases he
    obtain ⟨text, rfl, htext⟩ := unquote_eq_some_iff.mp hquote
    have hspelled := Spells.text htext
    rw [String.ofList_toList] at hspelled
    exact ⟨'"' :: text ++ ['"'], by simp, hspelled⟩
  · rename_i c tail _
    split at h
    · rename_i hc
      cases h
      exact ⟨[c], rfl, spelled_of_punctuation? hc⟩
    · obtain ⟨t', hword, he⟩ := Option.map_eq_some_iff.mp h
      cases he
      refine ⟨_, ?_, spelled_of_ofWord? hword⟩
      rw [List.cons_append, List.takeWhile_append_dropWhile]

theorem scan?_of_isBlank_eq_false (hc : isBlank c = false) :
    scan? (c :: cs) = (next? (c :: cs)).bind fun (t, rest) => (t :: ·) <$> scan? rest := by
  rw [scan?, if_neg (by simp [hc])]
  split <;>
  · rename_i h
    simp [h]

theorem scan?_blanks {bs : List Char} (h : Blanks bs) : scan? (bs ++ rest) = scan? rest := by
  induction bs with
  | nil => simp
  | cons b bs ih =>
    have hblank : ∀ c ∈ [' ', '\t', '\n', '\r'], isBlank c = true := by simp [isBlank]
    obtain ⟨hb, hbs⟩ := List.forall_mem_cons.mp h
    rw [List.cons_append, scan?, if_pos (hblank b hb), ih hbs]

theorem of_punctuation? (h : punctuation? c = some t) :
    isWordChar c = false ∧ ∀ cs, scan? (c :: cs) = (t :: ·) <$> scan? cs := by
  unfold punctuation? at h
  split at h <;> cases h <;>
  · refine ⟨rfl, fun cs => ?_⟩
    rw [scan?_of_isBlank_eq_false rfl]
    rfl

theorem scan?_text {s : List Char} (h : SpellsText cs s) :
    scan? ('"' :: cs ++ ['"'] ++ rest) = (.text (String.ofList s) :: ·) <$> scan? rest := by
  have hquote : unquote (cs ++ '"' :: rest) = some (String.ofList s, rest) := by
    apply unquote_eq_some_iff.mpr
    rw [String.toList_ofList]
    exact ⟨cs, rfl, h⟩
  rw [List.cons_append, List.cons_append, List.append_assoc, scan?_of_isBlank_eq_false rfl, next?,
    List.singleton_append, hquote]
  rfl

theorem scan?_word (ht : ofWord? cs = some t) (hcs : ∀ c ∈ cs, isWordChar c = true)
    (hrest : Stops isWordChar rest) : scan? (cs ++ rest) = (t :: ·) <$> scan? rest := by
  cases cs with
  | nil => cases ht
  | cons c cs =>
    rw [List.forall_mem_cons] at hcs
    obtain ⟨hblank, hquote, hmark⟩ := of_isWordChar hcs.1
    obtain ⟨htake, hdrop⟩ := takeWhile_dropWhile_run hcs.2 hrest
    rw [List.cons_append, scan?_of_isBlank_eq_false hblank, next?]
    · simp only [hmark, htake, hdrop, ht]
      rfl
    · exact hquote

end Token

/-! ## Texts of several tokens -/

/-- A text has these tokens, whatever comes behind it, if only no word goes on. -/
def Scans (cs : List Char) (ts : List Token) : Prop :=
  ∀ rest, Stops isWordChar rest → Token.scan? (cs ++ rest) = (ts ++ ·) <$> Token.scan? rest

namespace Scans

variable {ts ts' : List Token}

theorem blanks (h : Blanks cs) : Scans cs [] := by
  intro rest _
  rw [Token.scan?_blanks h]
  cases Token.scan? rest <;> simp

theorem word {t : Token} (ht : ofWord? cs = some t) (hcs : ∀ c ∈ cs, isWordChar c = true) :
    Scans cs [t] := fun _ hrest => Token.scan?_word ht hcs hrest

theorem padded {before after : List Char} (hbefore : Blanks before) (h : Scans cs ts)
    (hafter : Blanks after) : Scans (before ++ cs ++ after) ts := by
  intro rest hrest
  have hstops : Stops isWordChar (after ++ rest) := by
    cases after with
    | nil => exact hrest
    | cons b after =>
      have hblank : ∀ c ∈ [' ', '\t', '\n', '\r'], isWordChar c = false := by simp [isWordChar]
      intro c hc
      cases hc
      exact hblank b (hafter b List.mem_cons_self)
  rw [List.append_assoc, List.append_assoc, Token.scan?_blanks hbefore, h _ hstops,
    Token.scan?_blanks hafter]

/-- What stands on the two sides of a bracket, a colon or a comma is scanned apart. -/
theorem punctuated {c : Char} {t : Token} (h : Scans cs ts) (hc : punctuation? c = some t)
    (h' : Scans cs' ts') : Scans (cs ++ c :: cs') (ts ++ t :: ts') := by
  obtain ⟨hword, hscan⟩ := Token.of_punctuation? hc
  intro rest hrest
  have hstops : Stops isWordChar (c :: (cs' ++ rest)) := by
    intro c' hc'
    cases hc'
    exact hword
  rw [List.append_assoc cs, List.cons_append, h _ hstops, hscan, h' rest hrest]
  cases Token.scan? rest <;> simp

theorem bracketed {o c : Char} {left right : Token} (ho : punctuation? o = some left)
    (h : Scans cs ts) (hc : punctuation? c = some right) :
    Scans (o :: cs ++ [c]) (left :: ts ++ [right]) := by
  have hnil : Scans [] [] := blanks (fun _ hmem => nomatch hmem)
  exact hnil.punctuated ho (h.punctuated hc hnil)

end Scans

def Phrase.tokens : Phrase → List Token
  | .value v => v.tokens
  | .items vs => Value.itemTokens vs
  | .members ms => Value.memberTokens ms

/-- Scanning a text that spells something finds the tokens of what it spells. -/
theorem Spells.scans {p : Phrase} (h : Spells cs p) : Scans cs p.tokens := by
  have hcomma : punctuation? ',' = some .comma := rfl
  have hcolon : punctuation? ':' = some .colon := rfl
  induction h with
  | null => exact .word rfl (by simp [isWordChar])
  | true => exact .word rfl (by simp [isWordChar])
  | false => exact .word rfl (by simp [isWordChar])
  | number h => exact .word (ofWord?_of_numeral h) h.forall_isWordChar
  | text h => exact fun rest _ => Token.scan?_text h
  | emptyArray hbs => exact (Scans.blanks hbs).bracketed rfl rfl
  | array h ih => exact ih.bracketed rfl rfl
  | emptyObject hbs => exact (Scans.blanks hbs).bracketed rfl rfl
  | object h ih => exact ih.bracketed rfl rfl
  | padded hbefore h hafter ih => exact ih.padded hbefore hafter
  | item h ih => exact ih
  | items h hvs ih ihs => exact ih.punctuated hcomma ihs
  | member hname h ihname ih => exact ihname.punctuated hcolon ih
  | members h hms ih ihs => exact ih.punctuated hcomma ihs

/-! ## What has been scanned -/

/-- A text that is made of what spells these tokens, and of blanks. -/
inductive Written : List Token → List Char → Prop
  | nil : Written [] []
  | blank {ts : List Token} {b : Char} {cs : List Char} (hb : isBlank b = true)
      (h : Written ts cs) : Written ts (b :: cs)
  | token {t : Token} {ts : List Token} {front cs : List Char} (ht : t.Spelled front)
      (h : Written ts cs) : Written (t :: ts) (front ++ cs)

theorem written_of_scan? {ts : List Token} (h : Token.scan? cs = some ts) : Written ts cs := by
  fun_induction Token.scan? cs generalizing ts with
  | case1 =>
    cases h
    exact .nil
  | case2 c cs hblank ih => exact .blank hblank (ih h)
  | case3 c cs hblank t rest hnext _ ih =>
    obtain ⟨ts', hts', rfl⟩ := Option.map_eq_some_iff.mp h
    obtain ⟨front, heq, hfront⟩ := Token.exists_spelled_of_next? hnext
    rw [heq]
    exact .token hfront (ih hts')
  | case4 => cases h

namespace Written

variable {ts ts' : List Token} {t : Token}

theorem blanks_of_nil (h : Written [] cs) : Blanks cs := by
  generalize hnone : ([] : List Token) = ts at h
  induction h with
  | nil => exact fun _ hmem => nomatch hmem
  | blank hb _ ih =>
    rw [Blanks, List.forall_mem_cons]
    refine ⟨?_, ih hnone⟩
    simpa [isBlank, or_assoc] using hb
  | token => cases hnone

/-- What is written is cut at any of its tokens. The blanks around it stay with its neighbours. -/
theorem split (h : Written (ts ++ t :: ts') cs) :
    ∃ before front after, cs = before ++ (front ++ after) ∧ Written ts before ∧
      t.Spelled front ∧ Written ts' after := by
  generalize hall : ts ++ t :: ts' = all at h
  induction h generalizing ts with
  | nil => simp at hall
  | blank hb _ ih =>
    obtain ⟨before, front, after, rfl, hbefore, hfront, hafter⟩ := ih hall
    exact ⟨_ :: before, front, after, rfl, .blank hb hbefore, hfront, hafter⟩
  | token ht h ih =>
    cases ts with
    | nil =>
      cases hall
      exact ⟨[], _, _, rfl, .nil, ht, h⟩
    | cons u us =>
      obtain ⟨rfl, hrest⟩ := List.cons.inj hall
      obtain ⟨before, front, after, rfl, hbefore, hfront, hafter⟩ := ih hrest
      refine ⟨_ ++ before, front, after, ?_, .token ht hbefore, hfront, hafter⟩
      rw [List.append_assoc]

theorem uncons (h : Written (t :: ts) cs) :
    ∃ before front after, cs = before ++ (front ++ after) ∧ Blanks before ∧ t.Spelled front ∧
      Written ts after := by
  have hsplit : Written ([] ++ t :: ts) cs := h
  obtain ⟨before, front, after, rfl, hbefore, hfront, hafter⟩ := hsplit.split
  exact ⟨before, front, after, rfl, hbefore.blanks_of_nil, hfront, hafter⟩

end Written

end ShardedRecords.ConfigText
