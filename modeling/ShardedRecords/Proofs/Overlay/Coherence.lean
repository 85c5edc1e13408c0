import ShardedRecords.Proofs.Overlay.Drain

/-!
# The cache and the store

The cached contents of a blob are what reading the stored blob would give. It
holds of an empty cache, reads keep it, and a drain keeps it if its blobs go to
the store, as long as a blob that was merged reads back as its contents.
-/
namespace ShardedRecords

variable {κ δ γ : Type} [Ord κ]

/-- Reading a merged blob gives the contents that it was made of. -/
def BlobKind.Faithful (kind : BlobKind κ δ γ) : Prop :=
  ∀ {key content changes content' blob}, kind.merge key content changes = .ok (content', blob) →
    kind.read (some blob) = .ok content'

/-- Changes can be merged into merged contents, or along with the changes that made those. -/
def BlobKind.Composes [Std.TransOrd κ] (kind : BlobKind κ δ γ) : Prop :=
  ∀ {key base first content blob}, kind.merge key base first = .ok (content, blob) →
    ∀ second merged, kind.merge key content second = .ok merged ↔
      kind.merge key base (first ∪ second) = .ok merged

theorem BlobStore.loader_eq_ok {s : BlobStore} {outage : BlobKey → Option String} {key : BlobKey}
    {blob : Option Bytes} :
    s.loader outage key = .ok blob ↔ outage key = none ∧ s[key]? = blob := by
  unfold BlobStore.loader
  cases outage key <;> simp

/-- Every blob with changes is merged in the new store, and the others are as in the old. -/
structure BlobStore.Merged (kind : BlobKind κ δ γ)
    (staged : Std.ExtTreeMap BlobKey (Std.ExtTreeMap κ δ)) (store store' : BlobStore) : Prop where
  other : ∀ key : BlobKey, staged[key]? = none → store'[key]? = store[key]?
  merged : ∀ (key : BlobKey) changes, staged[key]? = some changes →
    ∃ base content blob, kind.read store[key]? = .ok base ∧
      kind.merge key base changes = .ok (content, blob) ∧ store'[key]? = some blob

theorem BlobStore.Merged.unique {kind : BlobKind κ δ γ}
    {staged : Std.ExtTreeMap BlobKey (Std.ExtTreeMap κ δ)} {store store₁ store₂ : BlobStore}
    (h₁ : store.Merged kind staged store₁) (h₂ : store.Merged kind staged store₂) :
    store₁ = store₂ := by
  ext1 key
  cases hs : staged[key]? with
  | none => rw [h₁.other key hs, h₂.other key hs]
  | some changes =>
    obtain ⟨base₁, content₁, blob₁, hread₁, hmerge₁, hstore₁⟩ := h₁.merged key changes hs
    obtain ⟨base₂, content₂, blob₂, hread₂, hmerge₂, hstore₂⟩ := h₂.merged key changes hs
    cases hread₁.symm.trans hread₂
    cases hmerge₁.symm.trans hmerge₂
    rw [hstore₁, hstore₂]

namespace Overlay

def Coherent (kind : BlobKind κ δ γ) (store : BlobStore) (o : Overlay κ δ γ) : Prop :=
  ∀ (key : BlobKey) content, o.cache[key]? = some content → kind.read store[key]? = .ok content

variable {kind : BlobKind κ δ γ} {store : BlobStore} {o : Overlay κ δ γ}
variable {outage : BlobKey → Option String} {key : BlobKey}

theorem coherent_empty : (empty : Overlay κ δ γ).Coherent kind store := by
  intro key content h
  rw [empty, Std.ExtTreeMap.getElem?_empty] at h
  cases h

/-- A change of the store behind the cache, or of what is staged, does not matter. -/
theorem Coherent.of_cache_eq {o' : Overlay κ δ γ} (h : o.Coherent kind store)
    (hcache : o'.cache = o.cache) : o'.Coherent kind store := by
  intro key content hkey
  exact h key content (hcache ▸ hkey)

theorem coherent_clearCache (o : Overlay κ δ γ) : o.clearCache.Coherent kind store :=
  coherent_empty

/-- Whichever way the contents were found, they are those in the store. -/
theorem Coherent.read_of_base (h : o.Coherent kind store) {content : γ}
    (hbase : o.base kind (store.loader outage) key = .ok content) :
    kind.read store[key]? = .ok content := by
  rcases base_eq_ok.mp hbase with hcache | ⟨-, blob, hload, hread⟩
  · exact h key content hcache
  · obtain ⟨-, rfl⟩ := BlobStore.loader_eq_ok.mp hload
    exact hread

/-- With the store at hand, it does not matter what is cached. -/
theorem Coherent.base_eq_read (h : o.Coherent kind store) (hout : outage key = none) :
    o.base kind (store.loader outage) key = kind.read store[key]? := by
  rw [base]
  cases hc : o.cache[key]? with
  | some cached => exact (h key cached hc).symm
  | none =>
    rw [BlobStore.loader, hout]

theorem fetch_fst (kind : BlobKind κ δ γ) (load : Loader) (o : Overlay κ δ γ) (key : BlobKey) :
    (o.fetch kind load key).1 = o.base kind load key := by
  rw [fetch]
  cases h : o.base kind load key <;> rfl

theorem staged_fetch (kind : BlobKind κ δ γ) (load : Loader) (o : Overlay κ δ γ) (key : BlobKey) :
    (o.fetch kind load key).2.staged = o.staged := by
  rw [fetch]
  cases h : o.base kind load key <;> rfl

theorem change?_fetch [Std.TransOrd κ] (kind : BlobKind κ δ γ) (load : Loader) (o : Overlay κ δ γ)
    (key key' : BlobKey) (place : κ) :
    (o.fetch kind load key).2.change? key' place = o.change? key' place := by
  rw [change?, staged_fetch, change?]

theorem Coherent.fetch (h : o.Coherent kind store) (outage : BlobKey → Option String)
    (key : BlobKey) : (o.fetch kind (store.loader outage) key).2.Coherent kind store := by
  rw [Overlay.fetch]
  cases hbase : o.base kind (store.loader outage) key with
  | error f => exact h
  | ok content =>
    intro key' content' hkey
    rw [Std.ExtTreeMap.getElem?_insert] at hkey
    by_cases heq : key = key'
    · subst heq
      rw [if_pos Std.ReflCmp.compare_self] at hkey
      cases hkey
      exact h.read_of_base hbase
    · rw [if_neg (by rwa [Std.compare_eq_iff_eq])] at hkey
      exact h key' content' hkey

/-- What is drained depends on what is staged and stored, and not on what is cached. -/
theorem Coherent.drain_eq {o' : Overlay κ δ γ} (h : o.Coherent kind store)
    (h' : o'.Coherent kind store) (hstaged : o.staged = o'.staged)
    (hout : ∀ key, outage key = none) :
    (o.drain kind (store.loader outage)).1 = (o'.drain kind (store.loader outage)).1 ∧
      (o.drain kind (store.loader outage)).2.staged =
        (o'.drain kind (store.loader outage)).2.staged := by
  have hbase : o.base kind (store.loader outage) = o'.base kind (store.loader outage) := by
    funext key
    rw [h.base_eq_read (hout key), h'.base_eq_read (hout key)]
  have hmerged : o.merged kind (store.loader outage) = o'.merged kind (store.loader outage) := by
    unfold merged mergeBlob
    rw [hbase, hstaged]
  unfold drain
  rw [hmerged]
  cases o'.merged kind (store.loader outage) with
  | error f => exact ⟨rfl, hstaged⟩
  | ok ms => exact ⟨rfl, rfl⟩

theorem Coherent.merged (h : o.Coherent kind store) {o' : Overlay κ δ γ} {store' : BlobStore}
    (hd : Drained kind (store.loader outage) o store o' store') :
    store.Merged kind o.staged store' := by
  refine ⟨fun key hs => (hd.other key hs).2, fun key changes hs => ?_⟩
  obtain ⟨base, content, blob, hbase, hmerge, -, hstore⟩ := hd.merged key changes hs
  exact ⟨base, content, blob, h.read_of_base hbase, hmerge, hstore⟩

theorem Coherent.drained (hkind : kind.Faithful) (h : o.Coherent kind store) {load : Loader}
    {o' : Overlay κ δ γ} {store' : BlobStore} (hd : Drained kind load o store o' store') :
    o'.Coherent kind store' := by
  intro key content hkey
  cases hs : o.staged[key]? with
  | none =>
    obtain ⟨hcache, hstore⟩ := hd.other key hs
    rw [hstore]
    exact h key content (hcache ▸ hkey)
  | some changes =>
    obtain ⟨base, content', blob, -, hmerge, hcache, hstore⟩ := hd.merged key changes hs
    rw [hcache] at hkey
    cases hkey
    rw [hstore]
    exact hkind hmerge

end Overlay

end ShardedRecords
