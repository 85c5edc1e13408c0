import ShardedRecords.ConfigText.Format
import ShardedRecords.ConfigText.Token

/-!
# Records in JSON

A reader and a writer of JSON values, and the text format that they make. The tokens of a text
are taken one after the other. What is unfinished lies on a stack, with the innermost array or
object on top.
-/
namespace ShardedRecords.ConfigText

/-! ## Values -/

namespace Value

mutual

/-- The tokens of a value, in their order. -/
def tokens : Value → List Token
  | .null => [.null]
  | .boolean b => [.boolean b]
  | .number numeral => [.number numeral]
  | .text s => [.text s]
  | .array vs => .leftBracket :: itemTokens vs ++ [.rightBracket]
  | .object ms => .leftBrace :: memberTokens ms ++ [.rightBrace]

/-- The tokens of items, with commas between them. -/
def itemTokens : List Value → List Token
  | [] => []
  | [v] => v.tokens
  | v :: w :: vs => v.tokens ++ .comma :: itemTokens (w :: vs)

def memberTokens : List (String × Value) → List Token
  | [] => []
  | [(s, v)] => .text s :: .colon :: v.tokens
  | (s, v) :: m :: ms => .text s :: .colon :: v.tokens ++ .comma :: memberTokens (m :: ms)

end

def toText (v : Value) : String := Token.render v.tokens

end Value

/-! ## Reading -/

/-- An array or object that is not finished, with what stands before the present item or
member in it. -/
inductive Frame
  | item (before : List Value)
  | member (before : List (String × Value)) (name : String)

/-- What is expected next. Behind an opening bracket or brace it may also be the closing one,
and a value that was read last is not on the stack. -/
inductive Expects
  | value (stack : List Frame)
  | firstItem (stack : List Frame)
  | firstMember (stack : List Frame)
  | nextMember (stack : List Frame) (before : List (String × Value))
  | colon (stack : List Frame) (before : List (String × Value)) (name : String)
  | close (stack : List Frame) (v : Value)

namespace Expects

/-- The first token of a value. -/
def begin? (stack : List Frame) : Token → Option Expects
  | .null => some (.close stack .null)
  | .boolean b => some (.close stack (.boolean b))
  | .number numeral => some (.close stack (.number numeral))
  | .text s => some (.close stack (.text s))
  | .leftBracket => some (.firstItem stack)
  | .leftBrace => some (.firstMember stack)
  | _ => none

def step? : Expects → Token → Option Expects
  | .value stack, t => begin? stack t
  | .firstItem stack, .rightBracket => some (.close stack (.array []))
  | .firstItem stack, t => begin? (.item [] :: stack) t
  | .firstMember stack, .rightBrace => some (.close stack (.object []))
  | .firstMember stack, .text name => some (.colon stack [] name)
  | .nextMember stack before, .text name => some (.colon stack before name)
  | .colon stack before name, .colon => some (.value (.member before name :: stack))
  | .close (.item before :: stack) v, .comma => some (.value (.item (before ++ [v]) :: stack))
  | .close (.item before :: stack) v, .rightBracket =>
    some (.close stack (.array (before ++ [v])))
  | .close (.member before name :: stack) v, .comma =>
    some (.nextMember stack (before ++ [(name, v)]))
  | .close (.member before name :: stack) v, .rightBrace =>
    some (.close stack (.object (before ++ [(name, v)])))
  | _, _ => none

def run? (e : Expects) (ts : List Token) : Option Expects := ts.foldlM step? e

end Expects

namespace Value

/-- The value with these tokens. -/
def ofTokens? (ts : List Token) : Option Value :=
  match (Expects.value []).run? ts with
  | some (.close [] v) => some v
  | _ => none

def ofText? (s : String) : Option Value := Token.scan? s.toList >>= ofTokens?

end Value

/-! ## Records -/

/-- A 64-bit number in plain digits, without a zero in front. -/
def word? (numeral : List Char) : Option UInt64 :=
  let n := Nat.ofDigitChars 10 numeral 0
  if Nat.toDigits 10 n = numeral ∧ n < UInt64.size then some (.ofNat n) else none

/-- A choice may also be written as the object that binds its name to null. -/
def FieldType.ofValue? {α : Type} : FieldType α → Value → Option α
  | .word, .number numeral => word? numeral
  | .choice _ ofName? _, .text s => ofName? s
  | .choice _ ofName? _, .object [(s, .null)] => ofName? s
  | _, _ => none

namespace RecordType

variable {α β : Type}

/-- Takes one more member. A field that is given twice is refused before its value is seen. -/
def take? (r : RecordType α β) (given : Given α β) (m : String × Value) : Option (Given α β) :=
  if m.1 = r.first.name then
    if given.first.isSome then none
    else (r.first.type.ofValue? m.2).map fun x => { given with first := some x }
  else if m.1 = r.second.name then
    if given.second.isSome then none
    else (r.second.type.ofValue? m.2).map fun y => { given with second := some y }
  else if r.closed then none
  else some given

/-- Puts in the defaults of what was not given. -/
def finish? (r : RecordType α β) (given : Given α β) : Option (α × β) := do
  let x ← given.first.or r.first.default
  let y ← given.second.or r.second.default
  return (x, y)

/-- An array gives the fields in their order and may stop where the rest has defaults. -/
def ofValue? (r : RecordType α β) : Value → Option (α × β)
  | .object ms => ms.foldlM r.take? ⟨none, none⟩ >>= r.finish?
  | .array [] => r.finish? ⟨none, none⟩
  | .array [v] => do
    let x ← r.first.type.ofValue? v
    r.finish? ⟨some x, none⟩
  | .array [v, w] => do
    let x ← r.first.type.ofValue? v
    let y ← r.second.type.ofValue? w
    r.finish? ⟨some x, some y⟩
  | _ => none

def toValue (r : RecordType α β) (x : α × β) : Value :=
  .object [(r.first.name, r.first.type.value x.1), (r.second.name, r.second.type.value x.2)]

end RecordType

/-- Strict JSON. -/
def TextFormat.json : TextFormat where
  value? := FieldType.ofValue?
  member? := RecordType.take?
  finish? := RecordType.finish?
  read? r s := Value.ofText? s >>= r.ofValue?
  write r x := (r.toValue x).toText

end ShardedRecords.ConfigText
