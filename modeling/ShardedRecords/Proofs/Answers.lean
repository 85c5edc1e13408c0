import Mathlib.Data.List.Forall2

/-!
# Answers of several steps

When an answer that was put together from others is a success, and of what. Two answers
can be compared by what is said of their results and of their faults.
-/
namespace Except

variable {ε ε' α β γ δ : Type}

/-- Two results that are related, or two faults that are. -/
inductive Related (E : ε → ε' → Prop) (R : α → β → Prop) : Except ε α → Except ε' β → Prop
  | ok {a : α} {b : β} (h : R a b) : Related E R (.ok a) (.ok b)
  | error {e : ε} {e' : ε'} (h : E e e') : Related E R (.error e) (.error e')

theorem Related.refl {E : ε → ε → Prop} {R : α → α → Prop} (hE : ∀ e, E e e) (hR : ∀ a, R a a)
    (x : Except ε α) : Related E R x x := by
  cases x with
  | error e => exact .error (hE e)
  | ok a => exact .ok (hR a)

theorem Related.imp {E F : ε → ε' → Prop} {R S : α → β → Prop} {x : Except ε α} {y : Except ε' β}
    (h : Related E R x y) (hE : ∀ e e', E e e' → F e e') (hR : ∀ a b, R a b → S a b) :
    Related F S x y := by
  cases h with
  | ok h => exact .ok (hR _ _ h)
  | error h => exact .error (hE _ _ h)

theorem Related.map {E : ε → ε' → Prop} {R : α → β → Prop} {S : γ → δ → Prop} {x : Except ε α}
    {y : Except ε' β} {f : α → γ} {g : β → δ} (h : Related E R x y)
    (hfg : ∀ a b, R a b → S (f a) (g b)) : Related E S (x.map f) (y.map g) := by
  cases h with
  | ok h => exact .ok (hfg _ _ h)
  | error h => exact .error h

theorem bind_eq_ok {x : Except ε α} {f : α → Except ε β} {b : β} :
    x >>= f = .ok b ↔ ∃ a, x = .ok a ∧ f a = .ok b := by
  cases x <;> simp [bind, Except.bind]

theorem bind_eq_error {x : Except ε α} {f : α → Except ε β} {e : ε} :
    x >>= f = .error e ↔ x = .error e ∨ ∃ a, x = .ok a ∧ f a = .error e := by
  cases x <;> simp [bind, Except.bind]

theorem map_eq_ok {x : Except ε α} {f : α → β} {b : β} :
    x.map f = .ok b ↔ ∃ a, x = .ok a ∧ f a = b := by
  cases x <;> simp [Except.map]

theorem map_eq_error {x : Except ε α} {f : α → β} {e : ε} : x.map f = .error e ↔ x = .error e := by
  cases x <;> simp [Except.map]

theorem mapError_eq_error {x : Except ε α} {f : ε → ε'} {e' : ε'} :
    x.mapError f = .error e' ↔ ∃ e, x = .error e ∧ f e = e' := by
  cases x <;> simp [Except.mapError]

theorem mapError_eq_ok {x : Except ε α} {f : ε → ε'} {a : α} :
    x.mapError f = .ok a ↔ x = .ok a := by
  cases x <;> simp [Except.mapError]

/-- A list of steps succeeds if each step does. -/
theorem mapM_eq_ok {f : α → Except ε β} {as : List α} {bs : List β} :
    as.mapM f = .ok bs ↔ List.Forall₂ (fun a b => f a = .ok b) as bs := by
  induction as generalizing bs with
  | nil =>
    rw [List.mapM_nil]
    cases bs <;> simp [pure, Except.pure]
  | cons a as ih =>
    rw [List.mapM_cons, bind_eq_ok]
    constructor
    · rintro ⟨b, hb, h⟩
      obtain ⟨bs', hbs, h⟩ := bind_eq_ok.mp h
      cases h
      exact .cons hb (ih.mp hbs)
    · rintro (_ | ⟨hb, hbs⟩)
      exact ⟨_, hb, bind_eq_ok.mpr ⟨_, ih.mpr hbs, rfl⟩⟩

/-- Only what the steps do with the members of the list matters. -/
theorem mapM_congr {f g : α → Except ε β} {as : List α} (h : ∀ a ∈ as, f a = g a) :
    as.mapM f = as.mapM g := by
  induction as with
  | nil => rfl
  | cons a as ih =>
    rw [List.forall_mem_cons] at h
    rw [List.mapM_cons, List.mapM_cons, h.1, ih h.2]

/-- Steps that are related one by one have related answers: of two faults, each is that of the
first step that fails, which is the same one. -/
theorem related_mapM {E : ε → ε' → Prop} {R : β → γ → Prop} {f : α → Except ε β}
    {g : α → Except ε' γ} {as : List α} (h : ∀ a ∈ as, Related E R (f a) (g a)) :
    Related E (List.Forall₂ R) (as.mapM f) (as.mapM g) := by
  induction as with
  | nil => exact .ok .nil
  | cons a as ih =>
    obtain ⟨ha, has⟩ := List.forall_mem_cons.mp h
    have hall := ih has
    rw [List.mapM_cons, List.mapM_cons]
    generalize f a = x, g a = y at ha
    generalize as.mapM f = xs, as.mapM g = ys at hall
    cases ha with
    | error he => exact .error he
    | ok hb => cases hall with
      | error he => exact .error he
      | ok hbs => exact .ok (.cons hb hbs)

theorem exists_mapM_eq_ok_iff {f : α → Except ε β} {as : List α} :
    (∃ bs, as.mapM f = .ok bs) ↔ ∀ a ∈ as, ∃ b, f a = .ok b := by
  induction as with
  | nil => simp [pure, Except.pure]
  | cons a as ih =>
    simp only [List.mapM_cons, List.forall_mem_cons, ← ih]
    cases f a with
    | error e => simp [bind, Except.bind]
    | ok b => cases as.mapM f <;> simp [bind, Except.bind, pure, Except.pure]

/-- A list of steps fails with the fault of the first step that does. -/
theorem mapM_eq_error_iff {f : α → Except ε β} {as : List α} {e : ε} :
    as.mapM f = .error e ↔ ∃ before a after, as = before ++ a :: after ∧
      (∀ a' ∈ before, ∃ b, f a' = .ok b) ∧ f a = .error e := by
  induction as with
  | nil => simp [pure, Except.pure]
  | cons a as ih =>
    rw [List.mapM_cons, bind_eq_error]
    constructor
    · rintro (hf | ⟨b, hf, h⟩)
      · exact ⟨[], a, as, rfl, by simp, hf⟩
      · have hrest : as.mapM f = .error e := by simpa [bind_eq_error, pure, Except.pure] using h
        obtain ⟨before, a', after, rfl, hbefore, ha'⟩ := ih.mp hrest
        exact ⟨a :: before, a', after, rfl, List.forall_mem_cons.mpr ⟨⟨b, hf⟩, hbefore⟩, ha'⟩
    · rintro ⟨_ | ⟨first, before⟩, a', after, heq, hbefore, ha'⟩ <;>
        obtain ⟨rfl, rfl⟩ := List.cons.inj heq
      · exact .inl ha'
      · obtain ⟨⟨b, hb⟩, hbefore⟩ := List.forall_mem_cons.mp hbefore
        have hrest := ih.mpr ⟨before, a', after, rfl, hbefore, ha'⟩
        exact .inr ⟨b, hb, bind_eq_error.mpr (.inl hrest)⟩

theorem exists_mem_of_mapM {f : α → Except ε β} {as : List α} {bs : List β}
    (h : as.mapM f = .ok bs) {a : α} (ha : a ∈ as) : ∃ b ∈ bs, f a = .ok b := by
  induction mapM_eq_ok.mp h with
  | nil => cases ha
  | cons hb hbs ih =>
    rcases List.mem_cons.mp ha with rfl | ha
    · exact ⟨_, List.mem_cons_self, hb⟩
    · obtain ⟨b, hmem, hf⟩ := ih (mapM_eq_ok.mpr hbs) ha
      exact ⟨b, List.mem_cons_of_mem _ hmem, hf⟩

theorem exists_mem_of_mem_mapM {f : α → Except ε β} {as : List α} {bs : List β}
    (h : as.mapM f = .ok bs) {b : β} (hb : b ∈ bs) : ∃ a ∈ as, f a = .ok b := by
  induction mapM_eq_ok.mp h with
  | nil => cases hb
  | cons ha has ih =>
    rcases List.mem_cons.mp hb with rfl | hb
    · exact ⟨_, List.mem_cons_self, ha⟩
    · obtain ⟨a, hmem, hf⟩ := ih (mapM_eq_ok.mpr has) hb
      exact ⟨a, List.mem_cons_of_mem _ hmem, hf⟩

/-- What each step keeps of its input, the list of answers keeps. -/
theorem map_eq_map_of_mapM {f : α → Except ε β} {as : List α} {bs : List β}
    (h : as.mapM f = .ok bs) {g : α → γ} {g' : β → γ}
    (hg : ∀ a b, f a = .ok b → g' b = g a) : bs.map g' = as.map g := by
  induction mapM_eq_ok.mp h with
  | nil => rfl
  | cons hb hbs ih => rw [List.map_cons, List.map_cons, hg _ _ hb, ih (mapM_eq_ok.mpr hbs)]

end Except
