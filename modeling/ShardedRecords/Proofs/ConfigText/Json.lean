import ShardedRecords.Proofs.ConfigText.Laws
import ShardedRecords.Proofs.ConfigText.Token

/-!
# Reading JSON

A text is read as a value exactly if it spells the value. The machine that reads tokens loses
none: at each time the tokens that it has taken can be told from what it has on its stack. With
this the text format that reads and writes JSON keeps to the laws.
-/
namespace ShardedRecords.ConfigText

/-- What holds of an array or object if it holds of everything in it holds of all values. -/
theorem Value.induction {P : Value → Prop} (null : P .null) (boolean : ∀ b, P (.boolean b))
    (number : ∀ numeral, P (.number numeral)) (text : ∀ s, P (.text s))
    (array : ∀ vs, (∀ v ∈ vs, P v) → P (.array vs))
    (object : ∀ ms : List (String × Value), (∀ m ∈ ms, P m.2) → P (.object ms)) : ∀ v, P v
  | .null => null
  | .boolean b => boolean b
  | .number numeral => number numeral
  | .text s => text s
  | .array vs => array vs fun v _ => induction null boolean number text array object v
  | .object ms => object ms fun m _ => induction null boolean number text array object m.2
termination_by v => v
decreasing_by
  · have hlt := List.sizeOf_lt_of_mem ‹v ∈ vs›
    simp only [Value.array.sizeOf_spec]
    omega
  · have hlt := List.sizeOf_lt_of_mem ‹m ∈ ms›
    have hm : sizeOf m.2 < sizeOf m := by
      cases m
      simp only [Prod.mk.sizeOf_spec]
      omega
    simp only [Value.object.sizeOf_spec]
    omega

/-! ## Tokens that have been taken -/

def itemsBefore (vs : List Value) : List Token := vs.flatMap fun v => v.tokens ++ [.comma]

def membersBefore (ms : List (String × Value)) : List Token :=
  ms.flatMap fun m => .text m.1 :: .colon :: m.2.tokens ++ [.comma]

theorem itemTokens_concat (vs : List Value) (v : Value) :
    Value.itemTokens (vs ++ [v]) = itemsBefore vs ++ v.tokens := by
  induction vs with
  | nil => simp [Value.itemTokens, itemsBefore]
  | cons w vs ih =>
    have hcons : Value.itemTokens (w :: (vs ++ [v])) =
        w.tokens ++ .comma :: Value.itemTokens (vs ++ [v]) := by
      cases vs <;> simp [Value.itemTokens]
    simp [hcons, ih, itemsBefore]

theorem memberTokens_concat (ms : List (String × Value)) (name : String) (v : Value) :
    Value.memberTokens (ms ++ [(name, v)]) =
      membersBefore ms ++ .text name :: .colon :: v.tokens := by
  induction ms with
  | nil => simp [Value.memberTokens, membersBefore]
  | cons m ms ih =>
    have hcons : Value.memberTokens (m :: (ms ++ [(name, v)])) =
        .text m.1 :: .colon :: m.2.tokens ++ .comma :: Value.memberTokens (ms ++ [(name, v)]) := by
      cases ms <;> simp [Value.memberTokens]
    simp [hcons, ih, membersBefore]

def Frame.tokens : Frame → List Token
  | .item before => .leftBracket :: itemsBefore before
  | .member before name => .leftBrace :: membersBefore before ++ [.text name, .colon]

/-- The outermost frame was opened first. -/
def stackTokens (stack : List Frame) : List Token := stack.reverse.flatMap Frame.tokens

theorem stackTokens_cons (frame : Frame) (stack : List Frame) :
    stackTokens (frame :: stack) = stackTokens stack ++ frame.tokens := by
  simp [stackTokens]

namespace Expects

variable {e e' : Expects} {t : Token} {ts : List Token} {stack : List Frame}

def tokens : Expects → List Token
  | .value stack => stackTokens stack
  | .firstItem stack => stackTokens stack ++ [.leftBracket]
  | .firstMember stack => stackTokens stack ++ [.leftBrace]
  | .nextMember stack before => stackTokens stack ++ .leftBrace :: membersBefore before
  | .colon stack before name =>
    stackTokens stack ++ .leftBrace :: membersBefore before ++ [.text name]
  | .close stack v => stackTokens stack ++ v.tokens

theorem tokens_of_begin? (h : begin? stack t = some e) : e.tokens = stackTokens stack ++ [t] := by
  unfold begin? at h
  split at h <;> cases h <;> simp [tokens, Value.tokens]

/-- No token is lost: the one that a step takes comes behind those taken before. -/
theorem tokens_of_step? (h : e.step? t = some e') : e'.tokens = e.tokens ++ [t] := by
  unfold step? at h
  -- one case for each equation of the step, as the stack decides what a closed value goes into
  split at h
  · exact tokens_of_begin? h
  · cases h
    simp [tokens, Value.tokens, Value.itemTokens]
  · rw [tokens_of_begin? h, stackTokens_cons]
    simp [tokens, Frame.tokens, itemsBefore]
  · cases h
    simp [tokens, Value.tokens, Value.memberTokens]
  · cases h
    simp [tokens, membersBefore]
  · cases h
    simp [tokens]
  · cases h
    simp [tokens, stackTokens_cons, Frame.tokens]
  · cases h
    simp [tokens, stackTokens_cons, Frame.tokens, itemsBefore]
  · cases h
    simp [tokens, stackTokens_cons, Frame.tokens, Value.tokens, itemTokens_concat]
  · cases h
    simp [tokens, stackTokens_cons, Frame.tokens, membersBefore]
  · cases h
    simp [tokens, stackTokens_cons, Frame.tokens, Value.tokens, memberTokens_concat]
  · cases h

theorem run?_nil : e.run? [] = some e := by
  simp [run?]

theorem run?_cons : e.run? (t :: ts) = (e.step? t).bind fun e => e.run? ts := by
  simp [run?]

theorem run?_append {ts' : List Token} :
    e.run? (ts ++ ts') = (e.run? ts).bind fun e => e.run? ts' := by
  simp [run?]

theorem tokens_of_run? (h : e.run? ts = some e') : e'.tokens = e.tokens ++ ts := by
  induction ts generalizing e with
  | nil =>
    rw [run?_nil] at h
    cases h
    simp
  | cons t ts ih =>
    rw [run?_cons, Option.bind_eq_some_iff] at h
    obtain ⟨e₁, hstep, hrun⟩ := h
    rw [ih hrun, tokens_of_step? hstep]
    simp

/-! ## The tokens of a value are taken -/

theorem exists_tokens_eq_cons (v : Value) : ∃ t ts, v.tokens = t :: ts ∧ t ≠ .rightBracket := by
  cases v <;> simp [Value.tokens]

theorem exists_itemTokens_eq_cons (v : Value) (vs : List Value) :
    ∃ t ts, Value.itemTokens (v :: vs) = t :: ts ∧ t ≠ .rightBracket := by
  obtain ⟨t, ts, htokens, ht⟩ := exists_tokens_eq_cons v
  cases vs <;> simp [Value.itemTokens, htokens, ht]

/-- Behind an opening bracket, what does not close it is the first item. -/
theorem run?_firstItem (ht : t ≠ .rightBracket) :
    (firstItem stack).run? (t :: ts) = (value (.item [] :: stack)).run? (t :: ts) := by
  simp only [run?_cons]
  cases t <;> simp_all [step?]

/-- Items go one by one behind those that the array on top of the stack already has. The
induction is on the items that are left, for all those before. -/
theorem run?_itemTokens (stack : List Frame) (before : List Value) {v : Value} {vs : List Value}
    (h : ∀ w ∈ v :: vs, ∀ stack, (value stack).run? w.tokens = some (.close stack w)) :
    (value (.item before :: stack)).run? (Value.itemTokens (v :: vs) ++ [.rightBracket]) =
      some (.close stack (.array (before ++ v :: vs))) := by
  induction vs generalizing before v with
  | nil =>
    rw [Value.itemTokens, run?_append, h v List.mem_cons_self]
    simp [run?_cons, run?_nil, step?]
  | cons w vs ih =>
    rw [List.forall_mem_cons] at h
    rw [Value.itemTokens, List.append_assoc, List.cons_append, run?_append, h.1]
    simp only [Option.bind_some, run?_cons, step?, ih (before ++ [v]) h.2]
    simp

theorem run?_memberTokens (stack : List Frame) (before : List (String × Value))
    {m : String × Value} {ms : List (String × Value)}
    (h : ∀ m' ∈ m :: ms, ∀ stack, (value stack).run? m'.2.tokens = some (.close stack m'.2)) :
    (nextMember stack before).run? (Value.memberTokens (m :: ms) ++ [.rightBrace]) =
      some (.close stack (.object (before ++ m :: ms))) := by
  induction ms generalizing before m with
  | nil =>
    obtain ⟨name, v⟩ := m
    simp only [Value.memberTokens, List.cons_append, run?_cons, step?, Option.bind_some]
    rw [run?_append, h (name, v) List.mem_cons_self]
    simp [run?_cons, run?_nil, step?]
  | cons m' ms ih =>
    obtain ⟨name, v⟩ := m
    rw [List.forall_mem_cons] at h
    simp only [Value.memberTokens, List.cons_append, List.append_assoc, run?_cons, step?,
      Option.bind_some]
    rw [run?_append, h.1]
    simp only [Option.bind_some, run?_cons, step?, ih (before ++ [(name, v)]) h.2]
    simp

theorem run?_tokens (v : Value) (stack : List Frame) :
    (value stack).run? v.tokens = some (.close stack v) := by
  induction v using Value.induction generalizing stack with
  | null => simp [Value.tokens, run?_cons, run?_nil, step?, begin?]
  | boolean b => simp [Value.tokens, run?_cons, run?_nil, step?, begin?]
  | number numeral => simp [Value.tokens, run?_cons, run?_nil, step?, begin?]
  | text s => simp [Value.tokens, run?_cons, run?_nil, step?, begin?]
  | array vs ih =>
    cases vs with
    | nil => simp [Value.tokens, Value.itemTokens, run?_cons, run?_nil, step?, begin?]
    | cons v vs =>
      have hitems := run?_itemTokens stack [] ih
      obtain ⟨t, ts, htokens, ht⟩ := exists_itemTokens_eq_cons v vs
      rw [htokens, List.cons_append, ← run?_firstItem ht] at hitems
      rw [Value.tokens, htokens, List.cons_append, run?_cons]
      exact hitems
  | object ms ih =>
    cases ms with
    | nil => simp [Value.tokens, Value.memberTokens, run?_cons, run?_nil, step?, begin?]
    | cons m ms =>
      have hmembers := run?_memberTokens stack [] ih
      obtain ⟨ts, htokens⟩ : ∃ ts, Value.memberTokens (m :: ms) = .text m.1 :: ts := by
        cases ms <;> simp [Value.memberTokens]
      rw [htokens, List.cons_append, run?_cons] at hmembers
      rw [Value.tokens, htokens, List.cons_append, run?_cons]
      exact hmembers

end Expects

theorem Value.ofTokens?_eq_some_iff {ts : List Token} {v : Value} :
    ofTokens? ts = some v ↔ v.tokens = ts := by
  constructor
  · intro h
    unfold ofTokens? at h
    split at h
    · rename_i hrun
      cases h
      have htokens := Expects.tokens_of_run? hrun
      simpa [Expects.tokens, stackTokens] using htokens
    · cases h
  · rintro rfl
    rw [ofTokens?, Expects.run?_tokens]

/-! ## Values -/

/-- A value that is a single token may have blanks around it. -/
theorem Written.spells {t : Token} {v : Value} {cs : List Char} (h : Written [t] cs)
    (ht : ∀ front, t.Spelled front → Spells front (.value v)) : Spells cs (.value v) := by
  obtain ⟨before, front, after, rfl, hbefore, hfront, hafter⟩ := h.uncons
  rw [← List.append_assoc]
  exact .padded hbefore (ht front hfront) hafter.blanks_of_nil

/-- What stands between two brackets, with blanks around these. -/
theorem Written.bracketed {left right : Token} {ts : List Token} {cs : List Char}
    (h : Written (left :: ts ++ [right]) cs) :
    ∃ before front inside back after, cs = before ++ (front ++ inside ++ back) ++ after ∧
      Blanks before ∧ left.Spelled front ∧ Written ts inside ∧ right.Spelled back ∧
      Blanks after := by
  obtain ⟨opened, back, after, rfl, hopened, hback, hafter⟩ := h.split
  obtain ⟨before, front, inside, rfl, hbefore, hfront, hinside⟩ := hopened.uncons
  exact ⟨before, front, inside, back, after, by simp, hbefore, hfront, hinside, hback,
    hafter.blanks_of_nil⟩

theorem spells_items_of_written {v : Value} {vs : List Value} {cs : List Char}
    (ih : ∀ w ∈ v :: vs, ∀ cs, Written w.tokens cs → Spells cs (.value w))
    (h : Written (Value.itemTokens (v :: vs)) cs) : Spells cs (.items (v :: vs)) := by
  induction vs generalizing v cs with
  | nil => exact .item (ih v List.mem_cons_self cs h)
  | cons w vs ihs =>
    rw [List.forall_mem_cons] at ih
    obtain ⟨item, _, items, rfl, hitem, rfl, hitems⟩ := Written.split h
    exact .items (ih.1 item hitem) (ihs ih.2 hitems)

theorem spells_member_of_written {name : String} {v : Value} {cs : List Char}
    (ih : ∀ cs, Written v.tokens cs → Spells cs (.value v))
    (h : Written ([.text name] ++ .colon :: v.tokens) cs) : Spells cs (.members [(name, v)]) := by
  obtain ⟨front, _, value, rfl, hfront, rfl, hvalue⟩ := h.split
  exact .member (hfront.spells fun _ hs => hs) (ih value hvalue)

theorem spells_members_of_written {m : String × Value} {ms : List (String × Value)}
    {cs : List Char} (ih : ∀ m' ∈ m :: ms, ∀ cs, Written m'.2.tokens cs → Spells cs (.value m'.2))
    (h : Written (Value.memberTokens (m :: ms)) cs) : Spells cs (.members (m :: ms)) := by
  induction ms generalizing m cs with
  | nil => exact spells_member_of_written (ih m List.mem_cons_self) h
  | cons m' ms ihs =>
    rw [List.forall_mem_cons] at ih
    obtain ⟨member, _, members, rfl, hmember, rfl, hmembers⟩ := Written.split h
    exact .members (spells_member_of_written ih.1 hmember) (ihs ih.2 hmembers)

theorem spells_of_written (v : Value) {cs : List Char} (h : Written v.tokens cs) :
    Spells cs (.value v) := by
  induction v using Value.induction generalizing cs with
  | null => exact h.spells fun _ hs => hs
  | boolean b => exact h.spells fun _ hs => hs
  | number numeral => exact h.spells fun _ hs => hs
  | text s => exact h.spells fun _ hs => hs
  | array vs ih =>
    obtain ⟨before, _, inside, _, after, rfl, hbefore, rfl, hinside, rfl, hafter⟩ := h.bracketed
    cases vs with
    | nil => exact .padded hbefore (.emptyArray hinside.blanks_of_nil) hafter
    | cons v vs => exact .padded hbefore (.array (spells_items_of_written ih hinside)) hafter
  | object ms ih =>
    obtain ⟨before, _, inside, _, after, rfl, hbefore, rfl, hinside, rfl, hafter⟩ := h.bracketed
    cases ms with
    | nil => exact .padded hbefore (.emptyObject hinside.blanks_of_nil) hafter
    | cons m ms => exact .padded hbefore (.object (spells_members_of_written ih hinside)) hafter

/-- A text is read exactly as the value that it spells. -/
theorem Value.ofText?_eq_some_iff {s : String} {v : Value} :
    ofText? s = some v ↔ Spells s.toList (.value v) := by
  simp only [ofText?, Option.bind_eq_bind, Option.bind_eq_some_iff, ofTokens?_eq_some_iff]
  constructor
  · rintro ⟨_, hscan, rfl⟩
    exact spells_of_written v (written_of_scan? hscan)
  · intro h
    have hscan := h.scans [] nofun
    rw [List.append_nil, Token.scan?] at hscan
    refine ⟨v.tokens, ?_, rfl⟩
    simpa [Phrase.tokens] using hscan

theorem Value.ofText?_eq_none_iff {s : String} :
    ofText? s = none ↔ ∀ v, ¬Spells s.toList (.value v) := by
  simp only [Option.eq_none_iff_forall_ne_some, ne_eq, ofText?_eq_some_iff]

/-! ## Fields -/

/-- Only zero begins with a zero. -/
theorem eq_zero_of_toDigits {n : Nat} {cs : List Char} (h : Nat.toDigits 10 n = '0' :: cs) :
    n = 0 := by
  induction n using Nat.strongRecOn generalizing cs with
  | ind n ih =>
    rw [Nat.toDigits_eq_if (by decide)] at h
    split at h
    · simpa using (List.cons.inj h).1
    · cases hfront : Nat.toDigits 10 (n / 10) with
      | nil => exact absurd hfront Nat.toDigits_ne_nil
      | cons d ds =>
        rw [hfront, List.cons_append] at h
        rw [(List.cons.inj h).1] at hfront
        have hzero := ih (n / 10) (by omega) hfront
        omega

/-- Plain digits are a number without sign, fraction and exponent. -/
theorem numeral_toDigits (n : Nat) : Numeral (Nat.toDigits 10 n) := by
  have hdigits : Digits (Nat.toDigits 10 n) :=
    ⟨Nat.toDigits_ne_nil, fun _ hc => Nat.isDigit_of_mem_toDigits (by decide) (by decide) hc⟩
  have hwhole : Whole (Nat.toDigits 10 n) := by
    by_cases hfront : (Nat.toDigits 10 n).head? = some '0'
    · obtain ⟨cs, hcs⟩ := List.head?_eq_some_iff.mp hfront
      rw [eq_zero_of_toDigits hcs, Nat.toDigits_zero]
      exact .zero
    · exact .digits hdigits hfront
  have hparts := Numeral.parts (.inl rfl) hwhole .none .none
  simpa using hparts

theorem word?_eq_some_iff {numeral : List Char} {n : UInt64} :
    word? numeral = some n ↔ numeral = Nat.toDigits 10 n.toNat := by
  simp only [word?, Option.ite_none_right_eq_some, Option.some.injEq]
  constructor
  · rintro ⟨⟨hdigits, hlt⟩, rfl⟩
    rw [UInt64.toNat_ofNat_of_lt' hlt, hdigits]
  · rintro rfl
    rw [Nat.ofDigitChars_toDigits (by decide) (by decide)]
    exact ⟨⟨rfl, n.toNat_lt⟩, n.ofNat_toNat⟩

theorem spells_text (s : String) : Spells ('"' :: quote s) (.value (.text s)) := by
  have htext := Spells.text (spellsText_flatMap_escape s.toList)
  rwa [String.ofList_toList] at htext

theorem FieldType.spells_value {α : Type} (t : FieldType α) (x : α) :
    Spells ((t.value x).tokens.flatMap Token.chars) (.value (t.value x)) := by
  cases t with
  | word =>
    have hnumber := Spells.number (numeral_toDigits x.toNat)
    simpa [FieldType.value, Value.tokens, Token.chars] using hnumber
  | choice name ofName? h =>
    simpa [FieldType.value, Value.tokens, Token.chars] using spells_text (name x)

/-! ## Laws -/

namespace TextFormat

theorem json_readsData : json.ReadsData where
  word v n := by
    cases v <;> simp [json, FieldType.ofValue?, word?_eq_some_iff]
  choice name ofName? h s := rfl

theorem json_visitsFields : json.VisitsFields where
  first r given v := by
    simp [json, RecordType.take?]
  second r given v := by
    simp [json, RecordType.take?, r.distinct.symm]
  unknown r given m hclosed hfirst hsecond := by
    simp [json, RecordType.take?, hclosed, hfirst, hsecond]
  finish r given := rfl

theorem json_readsJson : json.ReadsJson where
  object r s ms _ hs := by
    simp only [json, Value.ofText?_eq_some_iff.mpr hs]
    rfl
  strict r s x _ h := by
    simp only [json, Option.bind_eq_bind, Option.bind_eq_some_iff,
      Value.ofText?_eq_some_iff] at h
    obtain ⟨v, hs, hv⟩ := h
    cases v with
    | object ms => exact .inl ⟨ms, hs⟩
    | array vs => exact .inr ⟨vs, hs⟩
    | _ => cases hv

theorem json_writesJson : json.WritesJson where
  object r x y := by
    have hobject := Spells.object
      (.members (.member (spells_text r.first.name) (r.first.type.spells_value x))
        (.member (spells_text r.second.name) (r.second.type.spells_value y)))
    simpa [SpellsObject, json, RecordType.toValue, Value.toText, Token.render, Value.tokens,
      Value.memberTokens, Token.chars] using hobject

end TextFormat

end ShardedRecords.ConfigText
