import ShardedRecords.ConfigText.Format

/-!
# The grammar of JSON

Which text spells which value, said without a reader. Blanks may stand around every value
and around the name of a member, every character of a text may be written as an escape, and
objects keep their members in order, those of one name included.
-/
namespace ShardedRecords.ConfigText

def Blanks (cs : List Char) : Prop := ∀ c ∈ cs, c ∈ [' ', '\t', '\n', '\r']

/-! ## Texts -/

/-- A hexadecimal digit in lower or upper case. -/
def HexDigit (c : Char) (d : Nat) : Prop :=
  d < 16 ∧ (c = Nat.digitChar d ∨ c = (Nat.digitChar d).toUpper)

instance (c : Char) (d : Nat) : Decidable (HexDigit c d) :=
  inferInstanceAs (Decidable (d < 16 ∧ (c = Nat.digitChar d ∨ c = (Nat.digitChar d).toUpper)))

/-- Four hexadecimal digits, most significant first. -/
inductive SpellsUnit : List Char → Nat → Prop
  | digits {a b c d : Char} {w x y z : Nat} (ha : HexDigit a w) (hb : HexDigit b x)
      (hc : HexDigit c y) (hd : HexDigit d z) :
      SpellsUnit [a, b, c, d] (((w * 16 + x) * 16 + y) * 16 + z)

/-- The letters behind a backslash, with what they stand for. -/
def escapeLetters : List (Char × Char) :=
  [('"', '"'), ('\\', '\\'), ('/', '/'), ('b', '\x08'), ('f', '\x0c'), ('n', '\n'), ('r', '\r'),
    ('t', '\t')]

/-- One character between quotes. Beyond the first 65536 its escape is a pair, of which the
halves hold ten bits each. -/
inductive SpellsChar : List Char → Char → Prop
  | plain {c : Char} (hquote : c ≠ '"') (hbackslash : c ≠ '\\') (hcontrol : 32 ≤ c.toNat) :
      SpellsChar [c] c
  | letter {l c : Char} (h : (l, c) ∈ escapeLetters) : SpellsChar ['\\', l] c
  | unit {digits : List Char} {c : Char} (h : SpellsUnit digits c.toNat) :
      SpellsChar ('\\' :: 'u' :: digits) c
  | pair {high low : List Char} {c : Char} (hc : 0x10000 ≤ c.toNat)
      (hhigh : SpellsUnit high (0xD800 + (c.toNat - 0x10000) / 0x400))
      (hlow : SpellsUnit low (0xDC00 + (c.toNat - 0x10000) % 0x400)) :
      SpellsChar ('\\' :: 'u' :: high ++ '\\' :: 'u' :: low) c

inductive SpellsText : List Char → List Char → Prop
  | nil : SpellsText [] []
  | cons {front cs : List Char} {c : Char} {s : List Char} (hc : SpellsChar front c)
      (hs : SpellsText cs s) : SpellsText (front ++ cs) (c :: s)

/-! ## Numbers -/

def Digits (cs : List Char) : Prop := cs ≠ [] ∧ ∀ c ∈ cs, c.isDigit = true

/-- A whole number has no zero in front. -/
inductive Whole : List Char → Prop
  | zero : Whole ['0']
  | digits {ds : List Char} (h : Digits ds) (hfront : ds.head? ≠ some '0') : Whole ds

inductive Fraction : List Char → Prop
  | none : Fraction []
  | digits {ds : List Char} (h : Digits ds) : Fraction ('.' :: ds)

inductive Exponent : List Char → Prop
  | none : Exponent []
  | digits {e : Char} {sign ds : List Char} (he : e = 'e' ∨ e = 'E')
      (hsign : sign = [] ∨ sign = ['+'] ∨ sign = ['-']) (h : Digits ds) :
      Exponent (e :: sign ++ ds)

inductive Numeral : List Char → Prop
  | parts {sign whole fraction exponent : List Char} (hsign : sign = [] ∨ sign = ['-'])
      (hwhole : Whole whole) (hfraction : Fraction fraction) (hexponent : Exponent exponent) :
      Numeral (sign ++ (whole ++ (fraction ++ exponent)))

/-! ## Values -/

/-- What a piece of a text can stand for: a value, or what is between two brackets if it is
not empty. -/
inductive Phrase
  | value (v : Value)
  | items (vs : List Value)
  | members (ms : List (String × Value))

inductive Spells : List Char → Phrase → Prop
  | null : Spells ['n', 'u', 'l', 'l'] (.value .null)
  | true : Spells ['t', 'r', 'u', 'e'] (.value (.boolean true))
  | false : Spells ['f', 'a', 'l', 's', 'e'] (.value (.boolean false))
  | number {cs : List Char} (h : Numeral cs) : Spells cs (.value (.number cs))
  | text {cs s : List Char} (h : SpellsText cs s) :
      Spells ('"' :: cs ++ ['"']) (.value (.text (String.ofList s)))
  | emptyArray {bs : List Char} (hbs : Blanks bs) : Spells ('[' :: bs ++ [']']) (.value (.array []))
  | array {cs : List Char} {vs : List Value} (h : Spells cs (.items vs)) :
      Spells ('[' :: cs ++ [']']) (.value (.array vs))
  | emptyObject {bs : List Char} (hbs : Blanks bs) :
      Spells ('\x7b' :: bs ++ ['\x7d']) (.value (.object []))
  | object {cs : List Char} {ms : List (String × Value)} (h : Spells cs (.members ms)) :
      Spells ('\x7b' :: cs ++ ['\x7d']) (.value (.object ms))
  | padded {before cs after : List Char} {v : Value} (hbefore : Blanks before)
      (h : Spells cs (.value v)) (hafter : Blanks after) :
      Spells (before ++ cs ++ after) (.value v)
  | item {cs : List Char} {v : Value} (h : Spells cs (.value v)) : Spells cs (.items [v])
  | items {cs cs' : List Char} {v w : Value} {vs : List Value} (h : Spells cs (.value v))
      (hvs : Spells cs' (.items (w :: vs))) : Spells (cs ++ ',' :: cs') (.items (v :: w :: vs))
  | member {name cs : List Char} {s : String} {v : Value} (hname : Spells name (.value (.text s)))
      (h : Spells cs (.value v)) : Spells (name ++ ':' :: cs) (.members [(s, v)])
  | members {cs cs' : List Char} {m m' : String × Value} {ms : List (String × Value)}
      (h : Spells cs (.members [m])) (hms : Spells cs' (.members (m' :: ms))) :
      Spells (cs ++ ',' :: cs') (.members (m :: m' :: ms))

/-- The text of an object with these members, in this order. -/
def SpellsObject (s : String) (ms : List (String × Value)) : Prop :=
  Spells s.toList (.value (.object ms))

/-- The text of an array of these items. -/
def SpellsArray (s : String) (vs : List Value) : Prop := Spells s.toList (.value (.array vs))

end ShardedRecords.ConfigText
