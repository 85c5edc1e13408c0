import Mathlib.Data.List.Forall2
import ShardedRecords.Proofs.Session.History

/-!
# Sessions that do without their store

As long as the front can serve every operation by itself, nothing about the store is seen
in what is answered: not what it holds, not what is put into it in between, and not which of
its keys are out. Where answers are not determined by the operation, nothing more is seen than
what two answers to the same operation may differ in.
-/
namespace ShardedRecords.Session

/-- An operation on a front, with the front that it met and the answer that it got. -/
structure Served (φ ω : Type) where
  front : φ
  op : ω
  answer : Except Fault Answer

variable {φ ω : Type} {step : Outage → Session φ → ω → Except Fault Answer × Session φ}
variable {onFront : ω → Bool} {Serves : φ → ω → Prop} {Same : ω → ω → Prop}
variable {Alike : Served φ ω → Served φ ω → Prop} {outage : Outage} {op : ω}

/-! ## Commits -/

theorem commit_fst (s : Session φ) (drained : Except Fault (List (BlobKey × Bytes)) × φ) :
    (s.commit drained).1 = drained.1.map .blobs := by
  obtain ⟨fault | blobs, front⟩ := drained <;> rfl

theorem front_commit (s : Session φ) (drained : Except Fault (List (BlobKey × Bytes)) × φ) :
    (s.commit drained).2.front = drained.2 := by
  obtain ⟨fault | blobs, front⟩ := drained <;> rfl

/-! ## Operations on the front -/

/-- The operations on the front, without those on the store between them. -/
def frontOps (onFront : ω → Bool) (history : History ω) : List ω :=
  (history.filter fun o => onFront o.2).map Prod.snd

theorem frontOps_cons_of_pos (h : onFront op = true) (history : History ω) :
    frontOps onFront ((outage, op) :: history) = op :: frontOps onFront history := by
  simp [frontOps, h]

theorem frontOps_cons_of_neg (h : onFront op = false) (history : History ω) :
    frontOps onFront ((outage, op) :: history) = frontOps onFront history := by
  simp [frontOps, h]

/-- How the operations on the front are served. -/
def frontTrace (step : Outage → Session φ → ω → Except Fault Answer × Session φ)
    (onFront : ω → Bool) (s : Session φ) : History ω → List (Served φ ω)
  | [] => []
  | (outage, op) :: history =>
    if onFront op then
      ⟨s.front, op, (step outage s op).1⟩ :: frontTrace step onFront (step outage s op).2 history
    else frontTrace step onFront (step outage s op).2 history

theorem frontTrace_cons_of_pos (h : onFront op = true) (s : Session φ) (history : History ω) :
    s.frontTrace step onFront ((outage, op) :: history) =
      ⟨s.front, op, (step outage s op).1⟩ ::
        (step outage s op).2.frontTrace step onFront history := by
  simp [frontTrace, h]

theorem frontTrace_cons_of_neg (h : onFront op = false) (s : Session φ) (history : History ω) :
    s.frontTrace step onFront ((outage, op) :: history) =
      (step outage s op).2.frontTrace step onFront history := by
  simp [frontTrace, h]

/-! ## Fronts that serve their operations -/

/-- The front can serve each operation at the time at which it comes. -/
def ServesAll (step : Outage → Session φ → ω → Except Fault Answer × Session φ)
    (Serves : φ → ω → Prop) (s : Session φ) : History ω → Prop
  | [] => True
  | (outage, op) :: history =>
    Serves s.front op ∧ ServesAll step Serves (step outage s op).2 history

/-- Two sessions begin with one front and are put through the same operations on it, and the
front can serve them in the first. Then they are served alike and lead to one front. -/
def StoreFree (step : Outage → Session φ → ω → Except Fault Answer × Session φ)
    (onFront : ω → Bool) (Serves : φ → ω → Prop) (Same : ω → ω → Prop)
    (Alike : Served φ ω → Served φ ω → Prop) : Prop :=
  ∀ (s s' : Session φ) (history history' : History ω), s.front = s'.front →
    s.ServesAll step Serves history →
    List.Forall₂ Same (frontOps onFront history) (frontOps onFront history') →
    List.Forall₂ Alike (s.frontTrace step onFront history)
        (s'.frontTrace step onFront history') ∧
      (s.after step history).front = (s'.after step history').front

/-- Operations on the store do not change the front, and those that the front serves
depend on nothing else. -/
structure ServedByFront (step : Outage → Session φ → ω → Except Fault Answer × Session φ)
    (onFront : ω → Bool) (Serves : φ → ω → Prop) (Same : ω → ω → Prop)
    (Alike : Served φ ω → Served φ ω → Prop) : Prop where
  skip : ∀ outage (s : Session φ) op, onFront op = false → (step outage s op).2.front = s.front
  serve : ∀ outage outage' (s s' : Session φ) op op', onFront op = true → Same op op' →
    s.front = s'.front → Serves s.front op →
    Alike ⟨s.front, op, (step outage s op).1⟩ ⟨s'.front, op', (step outage' s' op').1⟩ ∧
      (step outage s op).2.front = (step outage' s' op').2.front

namespace ServedByFront

variable (h : ServedByFront step onFront Serves Same Alike)
include h

theorem frontTrace_of_frontOps_eq_nil {history : History ω}
    (hops : frontOps onFront history = []) (s : Session φ) :
    s.frontTrace step onFront history = [] ∧ (s.after step history).front = s.front := by
  induction history generalizing s with
  | nil => exact ⟨rfl, rfl⟩
  | cons head history ih =>
    obtain ⟨outage, op⟩ := head
    cases hop : onFront op with
    | true =>
      rw [frontOps_cons_of_pos hop] at hops
      cases hops
    | false =>
      rw [frontOps_cons_of_neg hop] at hops
      rw [frontTrace_cons_of_neg hop]
      obtain ⟨htrace, hafter⟩ := ih hops (step outage s op).2
      exact ⟨htrace, hafter.trans (h.skip outage s op hop)⟩

/-- The first operation on the front meets it as it was at the beginning. -/
theorem exists_first_of_frontOps_eq_cons {history : History ω} {ops : List ω}
    (hops : frontOps onFront history = op :: ops) (s : Session φ) :
    ∃ outage s₁ rest, s₁.front = s.front ∧ frontOps onFront rest = ops ∧
      s.frontTrace step onFront history =
        ⟨s₁.front, op, (step outage s₁ op).1⟩ ::
          (step outage s₁ op).2.frontTrace step onFront rest ∧
      s.after step history = (step outage s₁ op).2.after step rest := by
  induction history generalizing s with
  | nil => cases hops
  | cons head history ih =>
    obtain ⟨outage, op'⟩ := head
    cases hop : onFront op' with
    | true =>
      rw [frontOps_cons_of_pos hop] at hops
      obtain ⟨rfl, hrest⟩ := List.cons.inj hops
      exact ⟨outage, s, history, rfl, hrest, frontTrace_cons_of_pos hop s history, rfl⟩
    | false =>
      rw [frontOps_cons_of_neg hop] at hops
      rw [frontTrace_cons_of_neg hop]
      obtain ⟨outage', s₁, rest, hfront, hrest⟩ := ih hops (step outage s op').2
      exact ⟨outage', s₁, rest, hfront.trans (h.skip outage s op' hop), hrest⟩

/-- The induction is on the history in which the front can serve. The other one is cut at its
first operation on the front, as it need not be equally long. -/
theorem storeFree : StoreFree step onFront Serves Same Alike := by
  intro s s' history
  induction history generalizing s s' with
  | nil =>
    intro history' hfront _ hops
    have hnone : frontOps onFront history' = [] := List.forall₂_nil_left_iff.mp hops
    obtain ⟨htrace, hafter⟩ := h.frontTrace_of_frontOps_eq_nil hnone s'
    rw [htrace]
    exact ⟨.nil, hfront.trans hafter.symm⟩
  | cons head history ih =>
    obtain ⟨outage, op⟩ := head
    rintro history' hfront ⟨hserves, hall⟩ hops
    cases hop : onFront op with
    | false =>
      rw [frontOps_cons_of_neg hop] at hops
      rw [frontTrace_cons_of_neg hop]
      exact ih _ s' history' ((h.skip outage s op hop).trans hfront) hall hops
    | true =>
      rw [frontOps_cons_of_pos hop] at hops
      obtain ⟨op', ops', hsame, hsames, heq⟩ := List.forall₂_cons_left_iff.mp hops
      obtain ⟨outage', s₁, rest, hfirst, hrest, htrace', hafter'⟩ :=
        h.exists_first_of_frontOps_eq_cons heq s'
      obtain ⟨hanswer, hnext⟩ :=
        h.serve outage outage' s s₁ op op' hop hsame (hfront.trans hfirst.symm) hserves
      obtain ⟨htrace, hafter⟩ := ih _ _ rest hnext hall (hrest ▸ hsames)
      rw [frontTrace_cons_of_pos hop, htrace', hafter']
      exact ⟨.cons hanswer htrace, hafter⟩

end ServedByFront

end ShardedRecords.Session
