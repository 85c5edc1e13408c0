import ShardedRecords.ConfigText.Quoted

/-!
# Tokens of a JSON text

The parts of JSON: brackets, separators, quoted texts, numerals and the three literal names.
Any other text has no tokens. Blanks may stand between tokens and mean nothing.
-/
namespace ShardedRecords.ConfigText

/-! ## Numerals -/

def isDigits (cs : List Char) : Bool := !cs.isEmpty && cs.all Char.isDigit

/-- Zero is the only whole number that begins with a zero. -/
def isWhole (cs : List Char) : Bool := cs = ['0'] || isDigits cs && cs.head? != some '0'

/-- What is left of a text without the sign in front of it, if there is one of these. -/
def dropSign (signs : List Char) : List Char → List Char
  | [] => []
  | c :: cs => if c ∈ signs then cs else c :: cs

/-- Nothing, or an exponent. -/
def isExponent : List Char → Bool
  | [] => true
  | c :: cs => (c = 'e' || c = 'E') && isDigits (dropSign ['+', '-'] cs)

/-- What may stand behind a whole number: a fraction and an exponent, or one of them. -/
def isTail : List Char → Bool
  | '.' :: cs => isDigits (cs.takeWhile Char.isDigit) && isExponent (cs.dropWhile Char.isDigit)
  | cs => isExponent cs

def isNumeral (cs : List Char) : Bool :=
  let cs := dropSign ['-'] cs
  isWhole (cs.takeWhile Char.isDigit) && isTail (cs.dropWhile Char.isDigit)

/-! ## Tokens -/

inductive Token
  | leftBrace
  | rightBrace
  | leftBracket
  | rightBracket
  | colon
  | comma
  | null
  | boolean (b : Bool)
  | number (numeral : List Char)
  | text (s : String)
  deriving DecidableEq, Repr

/-- Blanks are the space, the tab and the two line ends. -/
def isBlank (c : Char) : Bool := c = ' ' || c = '\t' || c = '\n' || c = '\r'

def punctuation? : Char → Option Token
  | '\x7b' => some .leftBrace
  | '\x7d' => some .rightBrace
  | '[' => some .leftBracket
  | ']' => some .rightBracket
  | ':' => some .colon
  | ',' => some .comma
  | _ => none

/-- Literal names and numerals are runs of these characters. -/
def isWordChar (c : Char) : Bool := c.isAlphanum || c = '+' || c = '-' || c = '.'

def ofWord? (cs : List Char) : Option Token :=
  if cs = ['n', 'u', 'l', 'l'] then some .null
  else if cs = ['t', 'r', 'u', 'e'] then some (.boolean true)
  else if cs = ['f', 'a', 'l', 's', 'e'] then some (.boolean false)
  else if isNumeral cs then some (.number cs)
  else none

namespace Token

/-- The token at the front of a text, and the text behind it. -/
def next? : List Char → Option (Token × List Char)
  | [] => none
  | '"' :: cs => (unquote cs).map fun (s, rest) => (.text s, rest)
  | c :: cs =>
    match punctuation? c with
    | some token => some (token, cs)
    | none => (ofWord? (c :: cs.takeWhile isWordChar)).map (·, cs.dropWhile isWordChar)

theorem length_lt_of_next? {cs : List Char} {token : Token} {rest : List Char}
    (h : next? cs = some (token, rest)) : rest.length < cs.length := by
  unfold next? at h
  split at h
  · cases h
  · obtain ⟨⟨s, tail⟩, hu, he⟩ := Option.map_eq_some_iff.mp h
    cases he
    exact Nat.lt_succ_of_lt (length_lt_of_unquote hu)
  · split at h
    · cases h
      exact Nat.lt_succ_self _
    · obtain ⟨t, _, he⟩ := Option.map_eq_some_iff.mp h
      cases he
      exact Nat.lt_succ_of_le (List.dropWhile_suffix isWordChar).sublist.length_le

/-- The tokens of a whole text, if there is nothing else in it but blanks. -/
def scan? : List Char → Option (List Token)
  | [] => some []
  | c :: cs =>
    if isBlank c then scan? cs
    else match h : next? (c :: cs) with
      | some (token, rest) =>
        have := length_lt_of_next? h
        (token :: ·) <$> scan? rest
      | none => none
termination_by cs => cs.length
decreasing_by
  · exact Nat.lt_succ_self _
  · assumption

/-- A token as it is written. -/
def chars : Token → List Char
  | .leftBrace => ['\x7b']
  | .rightBrace => ['\x7d']
  | .leftBracket => ['[']
  | .rightBracket => [']']
  | .colon => [':']
  | .comma => [',']
  | .null => ['n', 'u', 'l', 'l']
  | .boolean true => ['t', 'r', 'u', 'e']
  | .boolean false => ['f', 'a', 'l', 's', 'e']
  | .number numeral => numeral
  | .text s => '"' :: quote s

/-- Tokens written without blanks. -/
def render (tokens : List Token) : String := String.ofList (tokens.flatMap chars)

end Token

end ShardedRecords.ConfigText
