/-!
# Records in texts

A configuration is a record of two fields. Its type says what the fields are called, what each
of them can hold, which of them have a default, and whether other names are allowed beside
them. Nothing here says how such a record is found in a text or written as one: that is left to
a text format, which is a parameter wherever a configuration is read or written.
-/
namespace ShardedRecords.ConfigText

/-- A value of JSON. A number is kept as it is written. -/
inductive Value
  | null
  | boolean (b : Bool)
  | number (numeral : List Char)
  | text (s : String)
  | array (items : List Value)
  | object (members : List (String × Value))

/-- A field holds a 64-bit word, or one of several choices, each with a name of its own. -/
inductive FieldType : Type → Type 1
  | word : FieldType UInt64
  | choice {α : Type} (name : α → String) (ofName? : String → Option α)
      (ofName?_eq_some_iff : ∀ s x, ofName? s = some x ↔ s = name x) : FieldType α

/-- How a value of a field is written: a word in plain digits, a choice by its name. -/
def FieldType.value {α : Type} : FieldType α → α → Value
  | .word, n => .number (Nat.toDigits 10 n.toNat)
  | .choice name _ _, x => .text (name x)

/-- A field without a default must be given. -/
structure RecordField (α : Type) where
  name : String
  type : FieldType α
  default : Option α

/-- In a closed record no names are allowed but those of the fields. -/
structure RecordType (α β : Type) where
  first : RecordField α
  second : RecordField β
  closed : Bool
  distinct : first.name ≠ second.name

/-- What has been given for the two fields so far. -/
structure Given (α β : Type) where
  first : Option α
  second : Option β

/-- How records are read from texts and written as texts. A text is read all at once, but the
format also says what it makes of a single value, of one more member of an object, and of
everything that was given once the object ends. -/
structure TextFormat where
  value? {α : Type} : FieldType α → Value → Option α
  member? {α β : Type} : RecordType α β → Given α β → String × Value → Option (Given α β)
  finish? {α β : Type} : RecordType α β → Given α β → Option (α × β)
  read? {α β : Type} : RecordType α β → String → Option (α × β)
  write {α β : Type} : RecordType α β → α × β → String

end ShardedRecords.ConfigText
