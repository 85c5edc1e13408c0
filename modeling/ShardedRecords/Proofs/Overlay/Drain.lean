import ShardedRecords.Overlay
import ShardedRecords.Proofs.Answers
import ShardedRecords.Proofs.LastByKey

/-!
# What a drain does

A drain that succeeds has merged every blob with staged changes, and no other:
the new blobs go to the store, their contents to the cache, and nothing is
staged any more. A drain that fails leaves everything as it was.
-/
namespace ShardedRecords

namespace Overlay

variable {κ δ γ β : Type} [Ord κ]
variable {kind : BlobKind κ δ γ} {load : Loader} {o : Overlay κ δ γ} {key : BlobKey}
variable {ms : List (MergedBlob γ)}

/-! ## What changes go on top of -/

theorem base_eq_ok {content : γ} : o.base kind load key = .ok content ↔
    o.cache[key]? = some content ∨
      o.cache[key]? = none ∧ ∃ blob, load key = .ok blob ∧ kind.read blob = .ok content := by
  unfold base
  cases hcache : o.cache[key]? with
  | some cached => simp
  | none => cases hload : load key <;> simp

theorem base_eq_error {f : Fault} : o.base kind load key = .error f ↔
    o.cache[key]? = none ∧ ((∃ reason, load key = .error reason ∧ f = .store reason) ∨
      ∃ blob, load key = .ok blob ∧ kind.read blob = .error f) := by
  unfold base
  cases hcache : o.cache[key]? with
  | some cached => simp
  | none => cases hload : load key <;> simp [eq_comm]

/-! ## Merged blobs -/

theorem mergeBlob_eq_error {changes : Std.ExtTreeMap κ δ} {f : Fault} :
    o.mergeBlob kind load (key, changes) = .error f ↔ o.base kind load key = .error f ∨
      ∃ base, o.base kind load key = .ok base ∧ kind.merge key base changes = .error f := by
  unfold mergeBlob
  simp only [Except.bind_eq_error, pure, Except.pure, reduceCtorEq, and_false, exists_false,
    or_false]

theorem mergeBlob_eq_ok {changes : Std.ExtTreeMap κ δ} {m : MergedBlob γ} :
    o.mergeBlob kind load (key, changes) = .ok m ↔
      m.key = key ∧ ∃ base, o.base kind load key = .ok base ∧
        kind.merge key base changes = .ok (m.content, m.blob) := by
  rw [mergeBlob, Except.bind_eq_ok]
  constructor
  · rintro ⟨base, hbase, h⟩
    obtain ⟨⟨content, blob⟩, hmerge, h⟩ := Except.bind_eq_ok.mp h
    cases h
    exact ⟨rfl, base, hbase, hmerge⟩
  · rintro ⟨rfl, base, hbase, hmerge⟩
    exact ⟨base, hbase, Except.bind_eq_ok.mpr ⟨_, hmerge, rfl⟩⟩

/-- The blobs come out under the keys of the staged changes, in their order. -/
theorem map_key_of_merged (h : o.merged kind load = .ok ms) :
    ms.map MergedBlob.key = o.staged.toList.map Prod.fst :=
  Except.map_eq_map_of_mapM h fun _ _ hm => (mergeBlob_eq_ok.mp hm).1

/-- Written anywhere under their keys, the merged blobs leave all other keys alone. -/
theorem getElem?_insertMany_of_not_staged (h : o.merged kind load = .ok ms)
    (hkey : o.staged[key]? = none) (f : MergedBlob γ → β) (m : Std.ExtTreeMap BlobKey β) :
    (m.insertMany (ms.map fun b => (b.key, f b)))[key]? = m[key]? := by
  refine Std.ExtTreeMap.getElem?_insertMany_list_of_contains_eq_false ?_
  have hkeys : (ms.map fun b => (b.key, f b)).map Prod.fst = o.staged.keys := by
    rw [List.map_map, ← Std.ExtTreeMap.map_fst_toList_eq_keys, ← map_key_of_merged h]
    rfl
  rw [hkeys]
  simpa using hkey

/-- Written anywhere under its key, a merged blob is found there. -/
theorem exists_getElem?_insertMany_of_staged (h : o.merged kind load = .ok ms)
    {changes : Std.ExtTreeMap κ δ} (hkey : o.staged[key]? = some changes) :
    ∃ b, o.mergeBlob kind load (key, changes) = .ok b ∧
      ∀ (β : Type) (f : MergedBlob γ → β) (m : Std.ExtTreeMap BlobKey β),
        (m.insertMany (ms.map fun b => (b.key, f b)))[key]? = some (f b) := by
  have hmem : (key, changes) ∈ o.staged.toList :=
    Std.ExtTreeMap.mem_toList_iff_getElem?_eq_some.mpr hkey
  obtain ⟨b, hb, hmerge⟩ := Except.exists_mem_of_mapM h hmem
  refine ⟨b, hmerge, fun β f m => ?_⟩
  have hdistinct : (ms.map fun b => (b.key, f b)).Pairwise
      fun a b => ¬compare a.1 b.1 = .eq := by
    have hkeys : (ms.map MergedBlob.key).Pairwise fun a b => ¬compare a b = .eq := by
      rw [map_key_of_merged h, List.pairwise_map]
      exact Std.ExtTreeMap.distinct_keys_toList
    exact List.pairwise_map.mpr (List.pairwise_map.mp hkeys)
  exact Std.ExtTreeMap.getElem?_insertMany_list_of_mem Std.ReflCmp.compare_self hdistinct
    (List.mem_map.mpr ⟨b, hb, by rw [(mergeBlob_eq_ok.mp hmerge).1]⟩)

/-- What there is after a drain that succeeds, with its blobs put in a store. -/
structure Drained (kind : BlobKind κ δ γ) (load : Loader) (o : Overlay κ δ γ) (store : BlobStore)
    (o' : Overlay κ δ γ) (store' : BlobStore) : Prop where
  staged : o'.staged = ∅
  other : ∀ key : BlobKey, o.staged[key]? = none →
    o'.cache[key]? = o.cache[key]? ∧ store'[key]? = store[key]?
  merged : ∀ (key : BlobKey) changes, o.staged[key]? = some changes →
    ∃ base content blob, o.base kind load key = .ok base ∧
      kind.merge key base changes = .ok (content, blob) ∧
      o'.cache[key]? = some content ∧ store'[key]? = some blob

theorem drain_eq_ok {blobs : List (BlobKey × Bytes)} {o' : Overlay κ δ γ}
    (h : o.drain kind load = (.ok blobs, o')) :
    ∃ ms, o.merged kind load = .ok ms ∧ blobs = ms.map (fun m => (m.key, m.blob)) ∧
      o' = ⟨∅, o.cache.insertMany (ms.map fun m => (m.key, m.content))⟩ := by
  unfold drain at h
  cases hms : o.merged kind load with
  | error f =>
    rw [hms] at h
    cases h
  | ok ms =>
    rw [hms] at h
    cases h
    refine ⟨ms, rfl, rfl, ?_⟩
    rw [Std.ExtTreeMap.insertMany_list_eq_foldl, List.foldl_map]

theorem drained_of_drain {blobs : List (BlobKey × Bytes)} {o' : Overlay κ δ γ}
    (h : o.drain kind load = (.ok blobs, o')) (store : BlobStore) :
    Drained kind load o store o' (store.apply blobs) := by
  obtain ⟨ms, hms, rfl, rfl⟩ := drain_eq_ok h
  have hstore : store.apply (ms.map fun m => (m.key, m.blob)) =
      store.insertMany (ms.map fun m => (m.key, m.blob)) := by
    rw [BlobStore.apply, Std.ExtTreeMap.insertMany_list_eq_foldl]
  refine ⟨rfl, fun key hkey => ?_, fun key changes hkey => ?_⟩
  · rw [hstore]
    exact ⟨getElem?_insertMany_of_not_staged hms hkey _ _,
      getElem?_insertMany_of_not_staged hms hkey _ _⟩
  · obtain ⟨b, hmerge, hfind⟩ := exists_getElem?_insertMany_of_staged hms hkey
    obtain ⟨-, base, hbase, hmerge⟩ := mergeBlob_eq_ok.mp hmerge
    rw [hstore]
    exact ⟨base, b.content, b.blob, hbase, hmerge, hfind _ _ _, hfind _ _ _⟩

/-! ## What is handed out -/

theorem drain_fst (kind : BlobKind κ δ γ) (load : Loader) (o : Overlay κ δ γ) :
    (o.drain kind load).1 = (o.merged kind load).map fun ms => ms.map fun m => (m.key, m.blob) := by
  unfold drain
  cases o.merged kind load <;> rfl

theorem map_fst_of_drain {blobs : List (BlobKey × Bytes)}
    (h : (o.drain kind load).1 = .ok blobs) : blobs.map Prod.fst = o.staged.keys := by
  rw [drain_fst] at h
  obtain ⟨ms, hms, rfl⟩ := Except.map_eq_ok.mp h
  rw [← Std.ExtTreeMap.map_fst_toList_eq_keys, ← map_key_of_merged hms, List.map_map]
  rfl

theorem exists_mem_drain_iff {blobs : List (BlobKey × Bytes)}
    (h : (o.drain kind load).1 = .ok blobs) :
    (∃ blob, (key, blob) ∈ blobs) ↔ ∃ changes, o.staged[key]? = some changes := by
  rw [← Option.isSome_iff_exists, ← Std.ExtTreeMap.mem_iff_isSome_getElem?,
    ← Std.ExtTreeMap.mem_keys, ← map_fst_of_drain h]
  simp

theorem pairwise_of_drain {blobs : List (BlobKey × Bytes)}
    (h : (o.drain kind load).1 = .ok blobs) :
    blobs.Pairwise fun a b => compare a.1 b.1 = .lt := by
  have hkeys : (blobs.map Prod.fst).Pairwise fun a b => compare a b = .lt := by
    rw [map_fst_of_drain h]
    exact Std.ExtTreeMap.ordered_keys
  exact List.pairwise_map.mp hkeys

/-- Each blob that is handed out is a merged one, and its contents are cached. -/
theorem exists_merge_of_mem_drain {blobs : List (BlobKey × Bytes)} {o' : Overlay κ δ γ}
    (h : o.drain kind load = (.ok blobs, o')) {blob : Bytes} (hmem : (key, blob) ∈ blobs) :
    ∃ changes base content, o.staged[key]? = some changes ∧ o.base kind load key = .ok base ∧
      kind.merge key base changes = .ok (content, blob) ∧ o'.cache[key]? = some content := by
  obtain ⟨ms, hms, rfl, rfl⟩ := drain_eq_ok h
  obtain ⟨m, hm, heq⟩ := List.mem_map.mp hmem
  obtain ⟨⟨key', changes⟩, hentry, hmergeBlob⟩ := Except.exists_mem_of_mem_mapM hms hm
  obtain ⟨rfl, base, hbase, hmerge⟩ := mergeBlob_eq_ok.mp hmergeBlob
  cases heq
  have hkey := Std.ExtTreeMap.mem_toList_iff_getElem?_eq_some.mp hentry
  obtain ⟨b, hb, hfind⟩ := exists_getElem?_insertMany_of_staged hms hkey
  cases hmergeBlob.symm.trans hb
  exact ⟨changes, base, m.content, hkey, hbase, hmerge, hfind _ _ _⟩

/-! ## When a drain succeeds -/

theorem exists_drain_eq_ok_iff : (∃ blobs, (o.drain kind load).1 = .ok blobs) ↔
    ∀ (key : BlobKey) changes, o.staged[key]? = some changes →
      ∃ m, o.mergeBlob kind load (key, changes) = .ok m := by
  simp only [drain_fst, Except.map_eq_ok]
  constructor
  · rintro ⟨_, ms, hms, -⟩ key changes hkey
    exact Except.exists_mapM_eq_ok_iff.mp ⟨ms, hms⟩ (key, changes)
      (Std.ExtTreeMap.mem_toList_iff_getElem?_eq_some.mpr hkey)
  · intro h
    have hall : ∀ entry ∈ o.staged.toList, ∃ m, o.mergeBlob kind load entry = .ok m := by
      rintro ⟨key, changes⟩ hentry
      exact h key changes (Std.ExtTreeMap.mem_toList_iff_getElem?_eq_some.mp hentry)
    obtain ⟨ms, hms⟩ := Except.exists_mapM_eq_ok_iff.mpr hall
    exact ⟨_, ms, hms, rfl⟩

/-- The fault of a drain is that of the first blob, in the order of the keys, that
cannot be merged. -/
theorem exists_first_of_drain_error {f : Fault} (h : (o.drain kind load).1 = .error f) :
    ∃ (key : BlobKey) (changes : Std.ExtTreeMap κ δ), o.staged[key]? = some changes ∧
      o.mergeBlob kind load (key, changes) = .error f ∧
      ∀ (key' : BlobKey) changes', compare key' key = .lt → o.staged[key']? = some changes' →
        ∃ m, o.mergeBlob kind load (key', changes') = .ok m := by
  rw [drain_fst, Except.map_eq_error] at h
  obtain ⟨before, ⟨key, changes⟩, after, hsplit, hbefore, hf⟩ := Except.mapM_eq_error_iff.mp h
  -- Blobs are merged in the order of the keys, so those with smaller keys stand before.
  have hkey : (key, changes) ∈ o.staged.toList := by simp [hsplit]
  refine ⟨key, changes, Std.ExtTreeMap.mem_toList_iff_getElem?_eq_some.mp hkey, hf, ?_⟩
  intro key' changes' hlt hkey'
  exact hbefore (key', changes') (mem_of_toList_eq_append hsplit hlt hkey')

theorem eq_of_drain_error {f : Fault} {o' : Overlay κ δ γ}
    (h : o.drain kind load = (.error f, o')) : o' = o := by
  rw [drain] at h
  split at h
  · exact (congrArg Prod.snd h).symm
  · cases h

end Overlay

end ShardedRecords
