import ShardedRecords.Overlay

/-!
# What is staged

Which changes may be staged is a parameter. Besides that, a blob is only staged
once there is a change to it, so that a drain has a reason for every blob that
it hands out.
-/
namespace ShardedRecords.Overlay

variable {κ δ γ : Type} [Ord κ] [Std.TransOrd κ]
variable {Allowed : BlobKey → κ → δ → Prop} {o : Overlay κ δ γ}

structure Tidy (Allowed : BlobKey → κ → δ → Prop) (o : Overlay κ δ γ) : Prop where
  nonempty : ∀ (key : BlobKey) changes, o.staged[key]? = some changes →
    ∃ (place : κ) (c : δ), changes[place]? = some c
  allowed : ∀ (key : BlobKey) changes, o.staged[key]? = some changes →
    ∀ (place : κ) c, changes[place]? = some c → Allowed key place c

theorem tidy_of_staged_eq_empty (h : o.staged = ∅) : o.Tidy Allowed := by
  refine ⟨fun key changes hkey => ?_, fun key changes hkey => ?_⟩ <;>
  · rw [h, Std.ExtTreeMap.getElem?_empty] at hkey
    cases hkey

theorem Tidy.of_staged_eq {o' : Overlay κ δ γ} (h : o.Tidy Allowed)
    (hstaged : o'.staged = o.staged) : o'.Tidy Allowed := by
  constructor <;> rw [hstaged]
  · exact h.nonempty
  · exact h.allowed

theorem Tidy.stage [Std.LawfulEqOrd κ] (h : o.Tidy Allowed) {key : BlobKey} {place : κ} {c : δ}
    (hc : Allowed key place c) : (o.stage key place c).Tidy Allowed := by
  have hstaged : ∀ (key' : BlobKey) changes, (o.stage key place c).staged[key']? = some changes →
      key' = key ∧ changes = (o.staged[key]?.getD ∅).insert place c ∨
        o.staged[key']? = some changes := by
    intro key' changes hkey
    rw [Overlay.stage, Std.ExtTreeMap.getElem?_insert] at hkey
    by_cases heq : key = key'
    · subst heq
      rw [if_pos Std.ReflCmp.compare_self] at hkey
      exact .inl ⟨rfl, (Option.some.inj hkey).symm⟩
    · rw [if_neg (by rwa [Std.compare_eq_iff_eq])] at hkey
      exact .inr hkey
  constructor
  · intro key' changes hkey
    rcases hstaged key' changes hkey with ⟨rfl, rfl⟩ | hold
    · exact ⟨place, c, Std.ExtTreeMap.getElem?_insert_self⟩
    · exact h.nonempty key' changes hold
  · intro key' changes hkey place' c' hplace
    rcases hstaged key' changes hkey with ⟨rfl, rfl⟩ | hold
    · rw [Std.ExtTreeMap.getElem?_insert] at hplace
      by_cases heq : place = place'
      · subst heq
        rw [if_pos Std.ReflCmp.compare_self] at hplace
        cases hplace
        exact hc
      · rw [if_neg (by rwa [Std.compare_eq_iff_eq])] at hplace
        cases hs : o.staged[key']? with
        | none =>
          rw [hs, Option.getD_none, Std.ExtTreeMap.getElem?_empty] at hplace
          cases hplace
        | some changes =>
          rw [hs, Option.getD_some] at hplace
          exact h.allowed key' changes hs place' c' hplace
    · exact h.allowed key' changes hold place' c' hplace

theorem Tidy.allowed_of_change? (h : o.Tidy Allowed) {key : BlobKey} {place : κ} {c : δ}
    (hc : o.change? key place = some c) : Allowed key place c := by
  obtain ⟨changes, hs, hplace⟩ := Option.bind_eq_some_iff.mp hc
  exact h.allowed key changes hs place c hplace

/-- There is nothing more to what is staged than its changes. -/
theorem Tidy.staged_eq [Std.LawfulEqOrd κ] {Allowed' : BlobKey → κ → δ → Prop}
    {o' : Overlay κ δ γ} (h : o.Tidy Allowed) (h' : o'.Tidy Allowed')
    (hchange : ∀ key place, o.change? key place = o'.change? key place) :
    o.staged = o'.staged := by
  ext1 key
  have hkey : ∀ place, (o.staged[key]? >>= fun changes => changes[place]?) =
      o'.staged[key]? >>= fun changes => changes[place]? := hchange key
  cases hs : o.staged[key]? with
  | none =>
    cases hs' : o'.staged[key]? with
    | none => rfl
    | some changes' =>
      obtain ⟨place, c, hc⟩ := h'.nonempty key changes' hs'
      simpa [hs, hs', hc] using hkey place
  | some changes =>
    cases hs' : o'.staged[key]? with
    | none =>
      obtain ⟨place, c, hc⟩ := h.nonempty key changes hs
      simpa [hs, hs', hc] using hkey place
    | some changes' =>
      refine congrArg some (Std.ExtTreeMap.ext_getElem? fun {place} => ?_)
      simpa [hs, hs'] using hkey place

end ShardedRecords.Overlay
