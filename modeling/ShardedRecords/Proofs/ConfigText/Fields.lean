import Mathlib.Data.List.Induction
import Mathlib.Data.List.Nodup
import Mathlib.Logic.Equiv.Defs
import ShardedRecords.Proofs.ConfigText.Laws

/-!
# Fields read by name

A record is read from an object by the names of its fields: each name at most once, none but
those of the fields, and the default where a field has one and is not given. Nothing of this
depends on the order of the members. A format says only what one more member does, and the rest
follows by induction on the members.
-/
namespace ShardedRecords.ConfigText

variable {α β : Type} {names : List String} {ms ms' : List (String × Value)} {m : String × Value}

/-- Each member is a field, and none is given twice. -/
structure Admits (names : List String) (ms : List (String × Value)) : Prop where
  known : ∀ m ∈ ms, m.1 ∈ names
  once : (ms.map Prod.fst).Nodup

theorem Admits.perm (h : Admits names ms) (hperm : ms.Perm ms') : Admits names ms' where
  known m hm := h.known m (hperm.mem_iff.mpr hm)
  once := (hperm.map Prod.fst).nodup_iff.mp h.once

theorem admits_concat_iff : Admits names (ms ++ [m]) ↔
    Admits names ms ∧ m.1 ∈ names ∧ ∀ v, (m.1, v) ∉ ms := by
  have hfresh : m.1 ∉ ms.map Prod.fst ↔ ∀ v, (m.1, v) ∉ ms := by simp
  rw [← hfresh]
  constructor
  · rintro ⟨hknown, honce⟩
    rw [List.forall_mem_append] at hknown
    rw [List.map_append, List.map_singleton, List.nodup_append] at honce
    obtain ⟨honce, -, hdisjoint⟩ := honce
    exact ⟨⟨hknown.1, honce⟩, hknown.2 m (by simp), fun hm => hdisjoint _ hm _ (by simp) rfl⟩
  · rintro ⟨⟨hknown, honce⟩, hm, hnew⟩
    constructor
    · rw [List.forall_mem_append]
      exact ⟨hknown, by simpa using hm⟩
    · rw [List.map_append, List.map_singleton, ← List.concat_eq_append]
      exact honce.concat hnew

/-- The values that are read alike by all formats: all of them for a word, texts for a choice. -/
def FieldType.Fits : FieldType α → Value → Prop
  | .word, _ => True
  | .choice _ _ _, v => ∃ s, v = .text s

theorem FieldType.fits_value (t : FieldType α) (x : α) : t.Fits (t.value x) := by
  cases t with
  | word => trivial
  | choice name ofName? h => exact ⟨name x, rfl⟩

theorem TextFormat.ReadsData.value?_eq_some_iff {L : TextFormat} (h : L.ReadsData)
    {t : FieldType α} {v : Value} (hv : t.Fits v) (x : α) :
    L.value? t v = some x ↔ v = t.value x := by
  cases t with
  | word => exact h.word v x
  | choice name ofName? hname =>
    obtain ⟨s, rfl⟩ := hv
    rw [h.choice, hname, FieldType.value, Value.text.injEq]

/-! ## What fields say -/

namespace RecordField

variable {f : RecordField α} {x : α}

/-- What is given for the field can be read, and something is given if there is no default. -/
structure Readable (f : RecordField α) (ms : List (String × Value)) : Prop where
  spelled : ∀ v, (f.name, v) ∈ ms → ∃ x, v = f.type.value x
  required : f.default = none → ∃ v, (f.name, v) ∈ ms

/-- The field is what is given for it, or else its default. -/
structure Says (f : RecordField α) (ms : List (String × Value)) (x : α) : Prop where
  given : ∀ v, (f.name, v) ∈ ms → v = f.type.value x
  absent : (∀ v, (f.name, v) ∉ ms) → f.default = some x

theorem Says.perm (h : f.Says ms x) (hperm : ms.Perm ms') : f.Says ms' x where
  given v hv := h.given v (hperm.mem_iff.mpr hv)
  absent hv := h.absent fun v hm => hv v (hperm.mem_iff.mp hm)

theorem Says.of_mem (honce : (ms.map Prod.fst).Nodup) (h : (f.name, f.type.value x) ∈ ms) :
    f.Says ms x where
  given _ hv := congrArg Prod.snd (List.inj_on_of_nodup_map honce hv h rfl)
  absent hnone := absurd h (hnone _)

theorem exists_says_iff (honce : (ms.map Prod.fst).Nodup) :
    (∃ x, f.Says ms x) ↔ f.Readable ms := by
  constructor
  · rintro ⟨x, h⟩
    constructor
    · intro v hv
      exact ⟨x, h.given v hv⟩
    · intro hnone
      by_contra habsent
      have hdefault := h.absent (not_exists.mp habsent)
      rw [hnone] at hdefault
      cases hdefault
  · intro h
    by_cases hgiven : ∃ v, (f.name, v) ∈ ms
    · obtain ⟨v, hv⟩ := hgiven
      obtain ⟨x, rfl⟩ := h.spelled v hv
      exact ⟨x, .of_mem honce hv⟩
    · cases hdefault : f.default with
      | none => exact absurd (h.required hdefault) hgiven
      | some x => exact ⟨x, fun v hv => absurd ⟨v, hv⟩ hgiven, fun _ => hdefault⟩

end RecordField

/-! ## What a format finds -/

namespace TextFormat

variable {L : TextFormat}

/-- The value that the format has taken for a field once these members are read. -/
def Finds (L : TextFormat) (f : RecordField α) (ms : List (String × Value)) : Option α → Prop
  | none => ∀ v, (f.name, v) ∉ ms
  | some x => ∃ v, (f.name, v) ∈ ms ∧ L.value? f.type v = some x

section

variable {f : RecordField α} {x? : Option α} {v : Value}

theorem finds_concat_of_ne (h : m.1 ≠ f.name) : L.Finds f (ms ++ [m]) x? ↔ L.Finds f ms x? := by
  have hne (v : Value) : (f.name, v) ≠ m := by
    rintro rfl
    exact h rfl
  cases x? <;> simp [Finds, hne]

theorem finds_concat_self (hfresh : ∀ v, (f.name, v) ∉ ms) :
    L.Finds f (ms ++ [(f.name, v)]) x? ↔ ∃ x, L.value? f.type v = some x ∧ x? = some x := by
  cases x? with
  | none =>
    constructor
    · intro h
      exact absurd (by simp) (h v)
    · rintro ⟨x, -, hx⟩
      cases hx
  | some x => simp [Finds, hfresh, eq_comm]

/-- With the default in place of what is not given, a field is found as what it says. -/
theorem exists_finds_iff (hdata : L.ReadsData) (honce : (ms.map Prod.fst).Nodup)
    (hfits : ∀ v, (f.name, v) ∈ ms → f.type.Fits v) (x : α) :
    (∃ x?, L.Finds f ms x? ∧ x?.or f.default = some x) ↔ f.Says ms x := by
  constructor
  · rintro ⟨_ | y, hfinds, hx⟩
    · exact ⟨fun v hv => absurd hv (hfinds v), fun _ => hx⟩
    · obtain ⟨v, hv, hy⟩ := hfinds
      cases hx
      rw [hdata.value?_eq_some_iff (hfits v hv)] at hy
      exact .of_mem honce (hy ▸ hv)
  · intro h
    by_cases hgiven : ∃ v, (f.name, v) ∈ ms
    · obtain ⟨v, hv⟩ := hgiven
      have hx := (hdata.value?_eq_some_iff (hfits v hv) x).mpr (h.given v hv)
      exact ⟨some x, ⟨v, hv, hx⟩, rfl⟩
    · exact ⟨none, not_exists.mp hgiven, h.absent (not_exists.mp hgiven)⟩

end

variable {r : RecordType α β} {given given' : Given α β}

/-- One more member gives one of the two fields its value. -/
theorem VisitsFields.member?_eq_some_iff (h : L.VisitsFields) (hclosed : r.closed = true) :
    L.member? r given m = some given' ↔
      (m.1 = r.first.name ∧ given.first = none ∧
        ∃ x, L.value? r.first.type m.2 = some x ∧ given' = { given with first := some x }) ∨
      (m.1 = r.second.name ∧ given.second = none ∧
        ∃ y, L.value? r.second.type m.2 = some y ∧ given' = { given with second := some y }) := by
  obtain ⟨name, v⟩ := m
  by_cases hfirst : name = r.first.name
  · subst hfirst
    cases hgiven : given.first <;> simp [h.first, hgiven, r.distinct, @eq_comm _ given']
  by_cases hsecond : name = r.second.name
  · subst hsecond
    cases hgiven : given.second <;> simp [h.second, hgiven, r.distinct.symm, @eq_comm _ given']
  · simp [h.unknown r given (name, v) hclosed hfirst hsecond, hfirst, hsecond]

/-- The members can all be taken if they are fields and none comes twice, and then each field
has been given what was found for it. The induction takes one member off the end. -/
theorem VisitsFields.foldlM_member?_iff (h : L.VisitsFields) (hclosed : r.closed = true) :
    ms.foldlM (L.member? r) ⟨none, none⟩ = some given ↔
      Admits [r.first.name, r.second.name] ms ∧ L.Finds r.first ms given.first ∧
        L.Finds r.second ms given.second := by
  induction ms using List.reverseRecOn generalizing given with
  | nil =>
    have hnone : Admits [r.first.name, r.second.name] [] := ⟨by simp, by simp⟩
    obtain ⟨_ | x, _ | y⟩ := given <;> simp [Finds, hnone]
  | append_singleton ms m ih =>
    simp only [List.foldlM_append, List.foldlM_cons, List.foldlM_nil, Option.bind_eq_bind,
      Option.bind_eq_some_iff, bind_pure, h.member?_eq_some_iff hclosed, ih, admits_concat_iff]
    obtain ⟨name, v⟩ := m
    constructor
    · rintro ⟨before, ⟨hadmits, hfirst, hsecond⟩, htaken⟩
      rcases htaken with ⟨rfl, hnone, x, hx, rfl⟩ | ⟨rfl, hnone, y, hy, rfl⟩
      · rw [hnone] at hfirst
        exact ⟨⟨hadmits, by simp, hfirst⟩, (finds_concat_self hfirst).mpr ⟨x, hx, rfl⟩,
          (finds_concat_of_ne r.distinct).mpr hsecond⟩
      · rw [hnone] at hsecond
        exact ⟨⟨hadmits, by simp, hsecond⟩, (finds_concat_of_ne r.distinct.symm).mpr hfirst,
          (finds_concat_self hsecond).mpr ⟨y, hy, rfl⟩⟩
    · rintro ⟨⟨hadmits, hname, hfresh⟩, hfirst, hsecond⟩
      simp only [List.mem_cons, List.not_mem_nil, or_false] at hname
      rcases hname with rfl | rfl
      · obtain ⟨x, hx, heq⟩ := (finds_concat_self hfresh).mp hfirst
        refine ⟨⟨none, given.second⟩, ⟨hadmits, hfresh, ?_⟩, .inl ⟨rfl, rfl, x, hx, ?_⟩⟩
        · exact (finds_concat_of_ne r.distinct).mp hsecond
        · rw [← heq]
      · obtain ⟨y, hy, heq⟩ := (finds_concat_self hfresh).mp hsecond
        refine ⟨⟨given.first, none⟩, ⟨hadmits, ?_, hfresh⟩, .inr ⟨rfl, rfl, y, hy, ?_⟩⟩
        · exact (finds_concat_of_ne r.distinct.symm).mp hfirst
        · rw [← heq]

/-! ## Records -/

section

variable {s : String} (hfields : L.VisitsFields) (hread : L.ReadsJson) (hclosed : r.closed = true)
include hfields hread hclosed

/-- What was read is JSON, and if it is an object it has the right names. -/
theorem admits_of_read? {z : α × β} (h : L.read? r s = some z) :
    (∃ ms, SpellsObject s ms ∧ Admits [r.first.name, r.second.name] ms) ∨
      ∃ vs, SpellsArray s vs := by
  rcases hread.strict r hclosed h with ⟨ms, hs⟩ | harray
  · rw [hread.object r hclosed hs, Option.bind_eq_bind, Option.bind_eq_some_iff] at h
    obtain ⟨given, hgiven, -⟩ := h
    exact .inl ⟨ms, hs, ((hfields.foldlM_member?_iff hclosed).mp hgiven).1⟩
  · exact .inr harray

variable (hdata : L.ReadsData) (hs : SpellsObject s ms)
variable (hfirst : ∀ v, (r.first.name, v) ∈ ms → r.first.type.Fits v)
variable (hsecond : ∀ v, (r.second.name, v) ∈ ms → r.second.type.Fits v)
include hdata hs hfirst hsecond

/-- A record is read from an object that says both of its fields and nothing else. -/
theorem read?_eq_some_iff {x : α} {y : β} : L.read? r s = some (x, y) ↔
    Admits [r.first.name, r.second.name] ms ∧ r.first.Says ms x ∧ r.second.Says ms y := by
  have hfinish (given : Given α β) : L.finish? r given = some (x, y) ↔
      given.first.or r.first.default = some x ∧ given.second.or r.second.default = some y := by
    simp [hfields.finish, Option.bind_eq_some_iff]
  rw [hread.object r hclosed hs, Option.bind_eq_bind, Option.bind_eq_some_iff]
  simp only [hfields.foldlM_member?_iff hclosed, hfinish]
  constructor
  · rintro ⟨given, ⟨hadmits, hf, hg⟩, hx, hy⟩
    exact ⟨hadmits, (exists_finds_iff hdata hadmits.once hfirst x).mp ⟨_, hf, hx⟩,
      (exists_finds_iff hdata hadmits.once hsecond y).mp ⟨_, hg, hy⟩⟩
  · rintro ⟨hadmits, hx, hy⟩
    obtain ⟨x?, hf, hx⟩ := (exists_finds_iff hdata hadmits.once hfirst x).mpr hx
    obtain ⟨y?, hg, hy⟩ := (exists_finds_iff hdata hadmits.once hsecond y).mpr hy
    exact ⟨⟨x?, y?⟩, ⟨hadmits, hf, hg⟩, hx, hy⟩

/-- A record is read exactly if both of its fields can be. -/
theorem exists_read?_iff : (∃ z, L.read? r s = some z) ↔
    Admits [r.first.name, r.second.name] ms ∧ r.first.Readable ms ∧ r.second.Readable ms := by
  rw [Prod.exists]
  simp only [read?_eq_some_iff hfields hread hclosed hdata hs hfirst hsecond]
  constructor
  · rintro ⟨x, y, hadmits, hx, hy⟩
    exact ⟨hadmits, (RecordField.exists_says_iff hadmits.once).mp ⟨x, hx⟩,
      (RecordField.exists_says_iff hadmits.once).mp ⟨y, hy⟩⟩
  · rintro ⟨hadmits, hf, hg⟩
    obtain ⟨x, hx⟩ := (RecordField.exists_says_iff hadmits.once).mpr hf
    obtain ⟨y, hy⟩ := (RecordField.exists_says_iff hadmits.once).mpr hg
    exact ⟨x, y, hadmits, hx, hy⟩

/-- The order of the members says nothing. -/
theorem read?_eq_of_perm {s' : String} (hs' : SpellsObject s' ms') (hperm : ms.Perm ms') :
    L.read? r s' = L.read? r s := by
  have hfirst' : ∀ v, (r.first.name, v) ∈ ms' → r.first.type.Fits v :=
    fun v hv => hfirst v (hperm.mem_iff.mpr hv)
  have hsecond' : ∀ v, (r.second.name, v) ∈ ms' → r.second.type.Fits v :=
    fun v hv => hsecond v (hperm.mem_iff.mpr hv)
  apply Option.ext
  rintro ⟨x, y⟩
  rw [read?_eq_some_iff hfields hread hclosed hdata hs hfirst hsecond,
    read?_eq_some_iff hfields hread hclosed hdata hs' hfirst' hsecond']
  constructor
  · rintro ⟨hadmits, hx, hy⟩
    exact ⟨hadmits.perm hperm.symm, hx.perm hperm.symm, hy.perm hperm.symm⟩
  · rintro ⟨hadmits, hx, hy⟩
    exact ⟨hadmits.perm hperm, hx.perm hperm, hy.perm hperm⟩

end

theorem read?_write (hfields : L.VisitsFields) (hread : L.ReadsJson) (hclosed : r.closed = true)
    (hdata : L.ReadsData) (hwrite : L.WritesJson) (z : α × β) :
    L.read? r (L.write r z) = some z := by
  obtain ⟨x, y⟩ := z
  have honce : ([(r.first.name, r.first.type.value x),
      (r.second.name, r.second.type.value y)].map Prod.fst).Nodup := by
    simp [r.distinct]
  apply (read?_eq_some_iff hfields hread hclosed hdata (hwrite.object r x y) _ _).mpr
  · exact ⟨⟨by simp, honce⟩, .of_mem honce (by simp), .of_mem honce (by simp)⟩
  · intro v hv
    simp only [List.mem_cons, Prod.mk.injEq, r.distinct, false_and, true_and, or_false,
      List.not_mem_nil] at hv
    exact hv ▸ r.first.type.fits_value x
  · intro v hv
    simp only [List.mem_cons, Prod.mk.injEq, r.distinct.symm, false_and, true_and, false_or,
      or_false, List.not_mem_nil] at hv
    exact hv ▸ r.second.type.fits_value y

/-! ## Records under another type -/

section

variable {γ : Type} {s : String} (e : α × β ≃ γ)

theorem map_read?_eq_some_iff {c : γ} :
    (L.read? r s).map e = some c ↔ L.read? r s = some (e.symm c) := by
  rw [Option.map_eq_some_iff]
  constructor
  · rintro ⟨z, hz, rfl⟩
    rwa [e.symm_apply_apply]
  · intro h
    exact ⟨_, h, e.apply_symm_apply c⟩

/-- What makes the record be read, as what, and that the order of the members is nothing. -/
theorem map_read?_by_name (hfields : L.VisitsFields) (hread : L.ReadsJson)
    (hclosed : r.closed = true) (hdata : L.ReadsData) (hs : SpellsObject s ms)
    (hfirst : ∀ v, (r.first.name, v) ∈ ms → r.first.type.Fits v)
    (hsecond : ∀ v, (r.second.name, v) ∈ ms → r.second.type.Fits v) :
    ((∃ c, (L.read? r s).map e = some c) ↔
      Admits [r.first.name, r.second.name] ms ∧ r.first.Readable ms ∧ r.second.Readable ms) ∧
    (∀ c, (L.read? r s).map e = some c ↔ Admits [r.first.name, r.second.name] ms ∧
      r.first.Says ms (e.symm c).1 ∧ r.second.Says ms (e.symm c).2) ∧
    ∀ s' ms', SpellsObject s' ms' → ms.Perm ms' →
      (L.read? r s').map e = (L.read? r s).map e := by
  simp only [map_read?_eq_some_iff]
  constructor
  · have hread := exists_read?_iff hfields hread hclosed hdata hs hfirst hsecond
    exact e.symm.surjective.exists.symm.trans hread
  constructor
  · intro c
    exact read?_eq_some_iff hfields hread hclosed hdata hs hfirst hsecond
  · intro s' ms' hs' hperm
    rw [read?_eq_of_perm hfields hread hclosed hdata hs hfirst hsecond hs' hperm]

end

end TextFormat

end ShardedRecords.ConfigText
