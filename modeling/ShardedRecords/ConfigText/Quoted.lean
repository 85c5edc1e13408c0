/-!
# Quoted text

The inside of a JSON string. A backslash begins an escape: one letter, or four
hex digits for a 16-bit unit, of which two make a character beyond the first
65536. A bare control character and half of such a pair are refused.
-/
namespace ShardedRecords.ConfigText

/-- A character, or a 16-bit unit that may be half of one. -/
inductive Piece
  | char (c : Char)
  | unit (n : Nat)
  deriving DecidableEq, Repr

def hexValue? (c : Char) : Option Nat :=
  if '0' ≤ c ∧ c ≤ '9' then some (c.toNat - 48)
  else if 'a' ≤ c ∧ c ≤ 'f' then some (c.toNat - 87)
  else if 'A' ≤ c ∧ c ≤ 'F' then some (c.toNat - 55)
  else none

def unit? (a b c d : Char) : Option Piece := do
  let a ← hexValue? a
  let b ← hexValue? b
  let c ← hexValue? c
  let d ← hexValue? d
  return .unit (((a * 16 + b) * 16 + c) * 16 + d)

/-- What a letter behind a backslash stands for. -/
def escaped? : Char → Option Char
  | '"' => some '"'
  | '\\' => some '\\'
  | '/' => some '/'
  | 'b' => some '\x08'
  | 'f' => some '\x0c'
  | 'n' => some '\n'
  | 'r' => some '\r'
  | 't' => some '\t'
  | _ => none

def isControl (c : Char) : Bool := c.toNat < 32

/-- The pieces up to the closing quote, and the text behind it. -/
def pieces : List Char → Option (List Piece × List Char)
  | [] => none
  | '"' :: rest => some ([], rest)
  | '\\' :: 'u' :: a :: b :: c :: d :: rest => do
    let piece ← unit? a b c d
    let (others, rest) ← pieces rest
    return (piece :: others, rest)
  | '\\' :: c :: rest => do
    let c ← escaped? c
    let (others, rest) ← pieces rest
    return (.char c :: others, rest)
  | c :: rest =>
    if isControl c then none else do
      let (others, rest) ← pieces rest
      return (.char c :: others, rest)

theorem length_lt_of_pieces {cs : List Char} {ps : List Piece} {rest : List Char}
    (h : pieces cs = some (ps, rest)) : rest.length < cs.length := by
  fun_induction pieces cs generalizing ps rest with
  | case1 => cases h
  | case2 => cases h; simp
  | case3 a b c d tail ih =>
    simp only [Option.bind_eq_bind, Option.bind_eq_some_iff] at h
    obtain ⟨_, _, ⟨_, tail'⟩, ht, he⟩ := h
    cases he
    have := ih ht
    simp only [List.length_cons]
    omega
  | case4 c tail _ ih =>
    simp only [Option.bind_eq_bind, Option.bind_eq_some_iff] at h
    obtain ⟨_, _, ⟨_, tail'⟩, ht, he⟩ := h
    cases he
    have := ih ht
    simp only [List.length_cons]
    omega
  | case5 => cases h
  | case6 c tail _ _ _ _ ih =>
    simp only [Option.bind_eq_bind, Option.bind_eq_some_iff] at h
    obtain ⟨⟨_, tail'⟩, ht, he⟩ := h
    cases he
    have := ih ht
    simp only [List.length_cons]
    omega

def isHighHalf (n : Nat) : Bool := 0xD800 ≤ n && n < 0xDC00

def isLowHalf (n : Nat) : Bool := 0xDC00 ≤ n && n < 0xE000

/-- Joins each high half with the low half right behind it. -/
def characters : List Piece → Option (List Char)
  | [] => some []
  | .char c :: ps => (c :: ·) <$> characters ps
  | .unit high :: .unit low :: ps =>
    if isHighHalf high then
      if isLowHalf low then
        (Char.ofNat (0x10000 + (high - 0xD800) * 0x400 + (low - 0xDC00)) :: ·) <$> characters ps
      else none
    else if isLowHalf high then none
    else (Char.ofNat high :: ·) <$> characters (.unit low :: ps)
  | .unit n :: ps =>
    if isHighHalf n || isLowHalf n then none else (Char.ofNat n :: ·) <$> characters ps

/-- The text up to the closing quote, and what follows. -/
def unquote (cs : List Char) : Option (String × List Char) := do
  let (ps, rest) ← pieces cs
  let text ← characters ps
  return (String.ofList text, rest)

theorem length_lt_of_unquote {cs : List Char} {s : String} {rest : List Char}
    (h : unquote cs = some (s, rest)) : rest.length < cs.length := by
  simp only [unquote, Option.bind_eq_bind, Option.bind_eq_some_iff] at h
  obtain ⟨⟨_, rest'⟩, hp, _, _, he⟩ := h
  cases he
  exact length_lt_of_pieces hp

def hexDigit (n : Nat) : Char := if n < 10 then Char.ofNat (48 + n) else Char.ofNat (87 + n)

/-- A character as it is written between quotes. -/
def escape (c : Char) : List Char :=
  if c = '"' then ['\\', '"']
  else if c = '\\' then ['\\', '\\']
  else if isControl c then
    ['\\', 'u', '0', '0', hexDigit (c.toNat / 16), hexDigit (c.toNat % 16)]
  else [c]

/-- A text with its closing quote. -/
def quote (s : String) : List Char := s.toList.flatMap escape ++ ['"']

end ShardedRecords.ConfigText
