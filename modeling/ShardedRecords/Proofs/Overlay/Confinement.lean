import ShardedRecords.Proofs.Overlay.Drain

/-!
# What is read from the store

A blob is loaded if its contents are needed and not cached, and no other blob is. So stores
that answer alike for these blobs cannot be told apart, and what is cached stands before the
store until the cache is dropped. How blobs are written shows in what a drain hands out and
nowhere else.
-/
namespace ShardedRecords

/-- Two kinds of blobs that read alike and merge to the same contents. What they write, or fail
with when they merge, is related. -/
structure BlobKind.Alike {κ δ γ : Type} [Ord κ] (kind kind' : BlobKind κ δ γ)
    (E : BlobKey → γ → Std.ExtTreeMap κ δ → Fault → Fault → Prop)
    (B : Bytes → Bytes → Prop) : Prop where
  read : kind.read = kind'.read
  merge (key : BlobKey) (base : γ) (changes : Std.ExtTreeMap κ δ) :
    Except.Related (E key base changes) (fun m m' => m.1 = m'.1 ∧ B m.2 m'.2)
      (kind.merge key base changes) (kind'.merge key base changes)

namespace Overlay

variable {κ δ γ : Type} [Ord κ] {kind kind' : BlobKind κ δ γ} {load load' : Loader}
variable {o : Overlay κ δ γ} {key : BlobKey}

theorem base_congr (h : key ∉ o.cache → load key = load' key) :
    o.base kind load key = o.base kind load' key := by
  unfold base
  cases hcache : o.cache[key]? with
  | some content => rfl
  | none =>
    have hmissing : key ∉ o.cache := by
      simp [Std.ExtTreeMap.mem_iff_isSome_getElem?, hcache]
    simp only [h hmissing]

/-! ## Reads -/

/-- What is asked for is staged, or its blob is cached. -/
def AtHand [Std.TransOrd κ] (o : Overlay κ δ γ) (key : BlobKey) (place : κ) : Prop :=
  (∃ c, o.change? key place = some c) ∨ key ∈ o.cache

theorem fetch_congr [Std.TransOrd κ] {place : κ} (hchange : o.change? key place = none)
    (h : o.AtHand key place ∨ load key = load' key) :
    o.fetch kind load key = o.fetch kind load' key := by
  have hload : key ∉ o.cache → load key = load' key := by
    intro hmissing
    rcases h with (⟨c, hstaged⟩ | hcached) | hsame
    · simp [hchange] at hstaged
    · exact absurd hcached hmissing
    · exact hsame
  unfold fetch
  rw [base_congr hload]

theorem mem_cache_fetch (kind : BlobKind κ δ γ) (load : Loader) (key' : BlobKey)
    (h : key ∈ o.cache) : key ∈ (o.fetch kind load key').2.cache := by
  unfold fetch
  cases o.base kind load key' with
  | error f => exact h
  | ok content => exact Std.ExtTreeMap.mem_insert.mpr (.inr h)

/-! ## Drains -/

theorem drain_congr (h : ∀ key ∈ o.staged, key ∉ o.cache → load key = load' key) :
    o.drain kind load = o.drain kind load' := by
  have hmerged : o.merged kind load = o.merged kind load' := by
    unfold merged
    apply Except.mapM_congr
    intro entry hentry
    have hstaged : entry.1 ∈ o.staged := by
      rw [← Std.ExtTreeMap.mem_keys, ← Std.ExtTreeMap.map_fst_toList_eq_keys]
      exact List.mem_map_of_mem hentry
    unfold mergeBlob
    rw [base_congr (h entry.1 hstaged)]
  unfold drain
  rw [hmerged]

/-- Every blob with staged changes is cached. -/
def StagedCached (o : Overlay κ δ γ) : Prop := ∀ key ∈ o.staged, key ∈ o.cache

theorem StagedCached.drain_eq (h : o.StagedCached) (kind : BlobKind κ δ γ) (load load' : Loader) :
    o.drain kind load = o.drain kind load' := by
  apply drain_congr
  intro key hstaged hmissing
  exact absurd (h key hstaged) hmissing

theorem mem_cache_drain (kind : BlobKind κ δ γ) (load : Loader) (h : key ∈ o.cache) :
    key ∈ (o.drain kind load).2.cache := by
  rcases hdrain : o.drain kind load with ⟨f | blobs, o'⟩
  · rwa [eq_of_drain_error hdrain]
  · obtain ⟨ms, -, -, rfl⟩ := drain_eq_ok hdrain
    exact Std.ExtTreeMap.mem_insertMany_list.mpr (.inl h)

/-! ## Ways of writing -/

/-- Equal faults, or the two in which the merges of one staged blob end. -/
inductive FailsAlike (E : BlobKey → γ → Std.ExtTreeMap κ δ → Fault → Fault → Prop)
    (kind : BlobKind κ δ γ) (load : Loader) (o : Overlay κ δ γ) : Fault → Fault → Prop
  | same (f : Fault) : FailsAlike E kind load o f f
  | merge {key : BlobKey} {changes : Std.ExtTreeMap κ δ compare} {base : γ} {f f' : Fault}
      (hstaged : (key, changes) ∈ o.staged.toList) (hbase : o.base kind load key = .ok base)
      (hfails : E key base changes f f') : FailsAlike E kind load o f f'

section

variable {E : BlobKey → γ → Std.ExtTreeMap κ δ → Fault → Fault → Prop} {B : Bytes → Bytes → Prop}

theorem related_mergeBlob (h : kind.Alike kind' E B) (load : Loader)
    {entry : BlobKey × Std.ExtTreeMap κ δ compare} (hentry : entry ∈ o.staged.toList) :
    Except.Related (o.FailsAlike E kind load)
      (fun m m' => (m.key = m'.key ∧ m.content = m'.content) ∧ B m.blob m'.blob)
      (o.mergeBlob kind load entry) (o.mergeBlob kind' load entry) := by
  have hbase : o.base kind' load entry.1 = o.base kind load entry.1 := by
    unfold base
    rw [h.read]
  unfold mergeBlob
  rw [hbase]
  cases hcontent : o.base kind load entry.1 with
  | error f => exact .error (.same f)
  | ok content =>
    have hmerge := h.merge entry.1 content entry.2
    simp only [bind, Except.bind]
    generalize kind.merge entry.1 content entry.2 = x, kind'.merge entry.1 content entry.2 = y
      at hmerge ⊢
    cases hmerge with
    | error hfails => exact .error (.merge hentry hcontent hfails)
    | ok hm => exact .ok ⟨⟨rfl, hm.1⟩, hm.2⟩

/-- The blobs that are handed out are related one by one, and what is left is the same. -/
theorem related_drain (h : kind.Alike kind' E B) (load : Loader) (o : Overlay κ δ γ) :
    Except.Related (o.FailsAlike E kind load) (List.Forall₂ fun b b' => b.1 = b'.1 ∧ B b.2 b'.2)
        (o.drain kind load).1 (o.drain kind' load).1 ∧
      (o.drain kind load).2 = (o.drain kind' load).2 := by
  have hmerged : Except.Related (o.FailsAlike E kind load) (List.Forall₂ fun m m' =>
      (m.key = m'.key ∧ m.content = m'.content) ∧ B m.blob m'.blob)
      (o.merged kind load) (o.merged kind' load) :=
    Except.related_mapM fun _ hentry => related_mergeBlob h load hentry
  unfold drain
  generalize o.merged kind load = x, o.merged kind' load = y at hmerged
  cases hmerged with
  | error he => exact ⟨.error he, rfl⟩
  | @ok ms ms' hms =>
    constructor
    · refine .ok ?_
      rw [List.forall₂_map_left_iff, List.forall₂_map_right_iff]
      exact hms.imp fun m m' hm => ⟨hm.1.1, hm.2⟩
    · have hcontents : ms.map (fun m => (m.key, m.content)) =
          ms'.map fun m => (m.key, m.content) := by
        rw [← List.forall₂_eq_eq_eq, List.forall₂_map_left_iff, List.forall₂_map_right_iff]
        exact hms.imp fun m m' hm => Prod.ext hm.1.1 hm.1.2
      have hcache := congrArg (List.foldl (fun cache b => cache.insert b.1 b.2) o.cache) hcontents
      rw [List.foldl_map, List.foldl_map] at hcache
      exact congrArg (Overlay.mk ∅) hcache

end

end Overlay

end ShardedRecords
