import ShardedRecords.Proofs.ConfigText.Grammar

/-!
# What is relied on of a text format

Reading and writing is done by libraries for JSON and for records, which are not part of this
one. Each law below states one thing that they are documented to do, about single values, about
single members or about whole texts.
-/
namespace ShardedRecords.ConfigText.TextFormat

/-- A word is read from its plain digits and from nothing else, and where a text is given for a
choice it is looked up among the names. -/
structure ReadsData (L : TextFormat) : Prop where
  word : ∀ (v : Value) (n : UInt64),
    L.value? .word v = some n ↔ v = .number (Nat.toDigits 10 n.toNat)
  choice : ∀ {α : Type} (name : α → String) (ofName? : String → Option α)
    (h : ∀ s x, ofName? s = some x ↔ s = name x) (s : String),
    L.value? (.choice name ofName? h) (.text s) = ofName? s

/-- A member that belongs to a field gives the field its value, unless it already has one. In a
closed record no other member is allowed. At the end of the object a field without a value gets
its default, which it must have. -/
structure VisitsFields (L : TextFormat) : Prop where
  first : ∀ {α β : Type} (r : RecordType α β) (given : Given α β) (v : Value),
    L.member? r given (r.first.name, v) = if given.first.isSome then none
      else (L.value? r.first.type v).map fun x => { given with first := some x }
  second : ∀ {α β : Type} (r : RecordType α β) (given : Given α β) (v : Value),
    L.member? r given (r.second.name, v) = if given.second.isSome then none
      else (L.value? r.second.type v).map fun y => { given with second := some y }
  unknown : ∀ {α β : Type} (r : RecordType α β) (given : Given α β) (m : String × Value),
    r.closed = true → m.1 ≠ r.first.name → m.1 ≠ r.second.name → L.member? r given m = none
  finish : ∀ {α β : Type} (r : RecordType α β) (given : Given α β),
    L.finish? r given = do
      let x ← given.first.or r.first.default
      let y ← given.second.or r.second.default
      return (x, y)

/-- The members of an object are taken in their order, up to the first that cannot be taken. A
text that is not JSON is not read, nor is any value but an object or an array. -/
structure ReadsJson (L : TextFormat) : Prop where
  object : ∀ {α β : Type} (r : RecordType α β) {s : String} {ms : List (String × Value)},
    r.closed = true → SpellsObject s ms →
    L.read? r s = ms.foldlM (L.member? r) ⟨none, none⟩ >>= L.finish? r
  strict : ∀ {α β : Type} (r : RecordType α β) {s : String} {x : α × β},
    r.closed = true → L.read? r s = some x →
    (∃ ms, SpellsObject s ms) ∨ ∃ vs, SpellsArray s vs

/-- A record is written as the object of its fields, in some spelling. -/
structure WritesJson (L : TextFormat) : Prop where
  object : ∀ {α β : Type} (r : RecordType α β) (x : α) (y : β),
    SpellsObject (L.write r (x, y))
      [(r.first.name, r.first.type.value x), (r.second.name, r.second.type.value y)]

end ShardedRecords.ConfigText.TextFormat
