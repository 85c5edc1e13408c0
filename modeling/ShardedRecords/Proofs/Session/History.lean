import ShardedRecords.Session.Basic

/-!
# Histories of a session

A history is a list of operations, each with what is out of the store while it
runs. Beside the session that it leads to it has a trace, which tells for each
operation how it was answered; a reference that only sees the trace can be
compared with the session after every history, and so can a second session that
skips some of the operations.
-/
namespace ShardedRecords

abbrev History (ω : Type) := List (Outage × ω)

namespace Session

variable {φ ω σ : Type} (step : Outage → Session φ → ω → Except Fault Answer × Session φ)

/-- The session behind a history. -/
def after (s : Session φ) : History ω → Session φ
  | [] => s
  | (outage, op) :: history => after (step outage s op).2 history

/-- The operations of a history with their answers. -/
def trace (s : Session φ) : History ω → List (ω × Except Fault Answer)
  | [] => []
  | (outage, op) :: history => (op, (step outage s op).1) :: trace (step outage s op).2 history

/-- What a history writes, in its order. -/
def writes {α : Type} (write? : ω → Option α) (history : History ω) : List α :=
  history.filterMap fun o => write? o.2

variable {step} {follow : σ → ω × Except Fault Answer → σ} {allowed : ω → Prop}

theorem after_append (s : Session φ) (earlier later : History ω) :
    s.after step (earlier ++ later) = (s.after step earlier).after step later := by
  induction earlier generalizing s with
  | nil => rfl
  | cons head earlier ih => exact ih _

/-- What each operation keeps holds after every history, and what it implies for each
answer holds of the whole trace. -/
theorem invariant_after {Invariant : Session φ → Prop} {Good : ω × Except Fault Answer → Prop}
    (hstep : ∀ outage op s, allowed op → Invariant s →
      Invariant (step outage s op).2 ∧ Good (op, (step outage s op).1))
    {s : Session φ} (h : Invariant s) (history : History ω)
    (hallowed : ∀ o ∈ history, allowed o.2) :
    Invariant (s.after step history) ∧ ∀ entry ∈ s.trace step history, Good entry := by
  induction history generalizing s with
  | nil => exact ⟨h, fun entry hentry => nomatch hentry⟩
  | cons head history ih =>
    obtain ⟨outage, op⟩ := head
    rw [List.forall_mem_cons] at hallowed
    obtain ⟨hnext, hgood⟩ := hstep outage op s hallowed.1 h
    obtain ⟨hafter, htrace⟩ := ih hnext hallowed.2
    exact ⟨hafter, List.forall_mem_cons.mpr ⟨hgood, htrace⟩⟩

theorem holds_after {Invariant : Session φ → Prop}
    (hstep : ∀ outage op s, allowed op → Invariant s → Invariant (step outage s op).2)
    {s : Session φ} (h : Invariant s) (history : History ω)
    (hallowed : ∀ o ∈ history, allowed o.2) : Invariant (s.after step history) := by
  have hboth : Invariant (s.after step history) ∧ ∀ entry ∈ s.trace step history, True :=
    invariant_after (fun outage op s hop hs => ⟨hstep outage op s hop hs, trivial⟩) h history
      hallowed
  exact hboth.1

theorem foldl_trace_writes {α : Type} {write? : ω → Option α} (s : Session φ)
    (history : History ω) (ws : List α) :
    (s.trace step history).foldl (fun ws entry => ws ++ (write? entry.1).toList) ws =
      ws ++ writes write? history := by
  induction history generalizing s ws with
  | nil => simp [trace, writes]
  | cons head history ih =>
    obtain ⟨outage, op⟩ := head
    rw [trace, List.foldl_cons, ih, List.append_assoc, writes, writes, List.filterMap_cons]
    cases write? op <;> rfl

/-- What holds between a session and its reference at first and is kept by each
operation holds after every history. -/
theorem simulates_after (Simulates : Session φ → σ → Prop)
    (hstep : ∀ outage op s a, allowed op → Simulates s a →
      Simulates (step outage s op).2 (follow a (op, (step outage s op).1)))
    {s : Session φ} {a : σ} (h : Simulates s a) (history : History ω)
    (hallowed : ∀ o ∈ history, allowed o.2) :
    Simulates (s.after step history) ((s.trace step history).foldl follow a) := by
  induction history generalizing s a with
  | nil => exact h
  | cons head history ih =>
    obtain ⟨outage, op⟩ := head
    rw [List.forall_mem_cons] at hallowed
    exact ih (hstep outage op s a hallowed.1 h) hallowed.2

/-- What a relation between two sessions says holds after a history and after what is
kept of it, if it makes both answer alike to what is kept, and if the first keeps to it
alone over what is not. The operations that are kept are then answered alike. -/
theorem trace_filter {Alike : Session φ → Session φ → Prop} {kept : ω → Bool}
    {allowed : Outage × ω → Prop}
    (hkept : ∀ outage op s s', allowed (outage, op) → kept op = true → Alike s s' →
      (step outage s op).1 = (step outage s' op).1 ∧
        Alike (step outage s op).2 (step outage s' op).2)
    (hskipped : ∀ outage op s s', allowed (outage, op) → kept op = false → Alike s s' →
      Alike (step outage s op).2 s')
    {s s' : Session φ} (h : Alike s s') (history : History ω)
    (hallowed : ∀ o ∈ history, allowed o) :
    (s.trace step history).filter (fun entry => kept entry.1) =
        s'.trace step (history.filter fun o => kept o.2) ∧
      Alike (s.after step history) (s'.after step (history.filter fun o => kept o.2)) := by
  induction history generalizing s s' with
  | nil => exact ⟨rfl, h⟩
  | cons head history ih =>
    obtain ⟨outage, op⟩ := head
    rw [List.forall_mem_cons] at hallowed
    cases hop : kept op with
    | true =>
      obtain ⟨hanswer, hnext⟩ := hkept outage op s s' hallowed.1 hop h
      obtain ⟨htrace, hafter⟩ := ih hnext hallowed.2
      simp only [trace, after, List.filter_cons, hop, if_true, htrace, hanswer]
      exact ⟨trivial, hafter⟩
    | false =>
      obtain ⟨htrace, hafter⟩ := ih (hskipped outage op s s' hallowed.1 hop h) hallowed.2
      simp only [trace, after, List.filter_cons, hop]
      exact ⟨htrace, hafter⟩

end Session

end ShardedRecords
