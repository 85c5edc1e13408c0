import ShardedRecords.Proofs.BucketedTable.Reachable
import ShardedRecords.Proofs.Overlay.Counting

/-!
# How many keys of a table are staged

A table that is used counts the different keys that were put or erased since it was last
discarded or drained, and the buckets of these keys.
-/
namespace ShardedRecords.BucketedTable

variable {config : BucketedTable.Config} {t : BucketedTable} {keys : List Bytes}

/-- What a table can be after any operations, with the keys that were put or erased since it
was last discarded or drained without a fault. -/
inductive Touched (config : BucketedTable.Config) : List Bytes → BucketedTable → Prop
  | opened {t : BucketedTable} : ofConfig config = .ok t → Touched config [] t
  | put {keys : List Bytes} {t : BucketedTable} (key value : Bytes) :
      Touched config keys t → Touched config (keys ++ [key]) (t.put key value)
  | erase {keys : List Bytes} {t : BucketedTable} (key : Bytes) :
      Touched config keys t → Touched config (keys ++ [key]) (t.erase key)
  | get {keys : List Bytes} {t : BucketedTable} (load : Loader) (key : Bytes) :
      Touched config keys t → Touched config keys (t.get load key).2
  | discard {keys : List Bytes} {t : BucketedTable} :
      Touched config keys t → Touched config [] t.discard
  | clearCache {keys : List Bytes} {t : BucketedTable} :
      Touched config keys t → Touched config keys t.clearCache
  | drained {keys : List Bytes} {t : BucketedTable} {load : Loader}
      {blobs : List (BlobKey × Bytes)} : (t.drain load).1 = .ok blobs →
      Touched config keys t → Touched config [] (t.drain load).2
  | failed {keys : List Bytes} {t : BucketedTable} {load : Loader} {fault : Fault} :
      (t.drain load).1 = .error fault →
      Touched config keys t → Touched config keys (t.drain load).2

theorem Touched.reachable (h : Touched config keys t) : Reachable config t := by
  induction h with
  | opened hopen => exact .opened hopen
  | put key value _ ih => exact ih.put key value
  | erase key _ ih => exact ih.erase key
  | get load key _ ih => exact ih.get load key
  | discard _ ih => exact ih.discard
  | clearCache _ ih => exact ih.clearCache
  | drained _ _ ih => exact ih.drain _
  | failed _ _ ih => exact ih.drain _

theorem Reachable.exists_touched (h : Reachable config t) : ∃ keys, Touched config keys t := by
  induction h with
  | opened hopen => exact ⟨_, .opened hopen⟩
  | put key value _ ih => exact ⟨_, ih.choose_spec.put key value⟩
  | erase key _ ih => exact ⟨_, ih.choose_spec.erase key⟩
  | get load key _ ih => exact ⟨_, ih.choose_spec.get load key⟩
  | discard _ ih => exact ⟨_, ih.choose_spec.discard⟩
  | clearCache _ ih => exact ⟨_, ih.choose_spec.clearCache⟩
  | @drain t load _ ih =>
    obtain ⟨keys, hkeys⟩ := ih
    cases hdrain : (t.drain load).1 with
    | ok blobs => exact ⟨_, hkeys.drained hdrain⟩
    | error fault => exact ⟨_, hkeys.failed hdrain⟩

theorem Reachable.bucketCount_eq (h : Reachable config t) :
    t.router.bucketCount = config.bucketCount := by
  induction h with
  | opened hopen =>
    obtain ⟨r, hr, rfl⟩ := Except.map_eq_ok.mp hopen
    have hcount := Except.mapError_eq_ok.mp hr
    unfold Router.ofCount at hcount
    split at hcount <;> cases hcount
    rfl
  | @get t load key _ ih =>
    rcases t.get_snd load key with heq | heq <;> rw [heq]
    · exact ih
    · exact ih
  | put _ _ _ ih => exact ih
  | erase _ _ ih => exact ih
  | discard _ ih => exact ih
  | clearCache _ ih => exact ih
  | drain _ _ ih => exact ih

/-- The bucket of a key, and the key in it. -/
def place (t : BucketedTable) (key : Bytes) : BlobKey × Bytes := (t.blobKey key, key)

/-- Each change is staged for a key that was put or erased. -/
theorem Touched.files (h : Touched config keys t) : t.overlay.Files t.place keys := by
  induction h with
  | opened hopen =>
    obtain ⟨_, -, rfl⟩ := Except.map_eq_ok.mp hopen
    exact .of_staged_eq_empty rfl
  | put key value _ ih => exact ih.stage key _
  | erase key _ ih => exact ih.stage key _
  | @get keys t load key _ ih =>
    rcases t.get_snd load key with heq | heq <;> rw [heq]
    · exact ih
    · exact ih.of_staged_eq (Overlay.staged_fetch ..)
  | discard _ _ => exact .of_staged_eq_empty rfl
  | clearCache _ ih => exact ih.of_staged_eq rfl
  | drained hok _ _ => exact .of_drain_ok hok
  | failed herror _ ih => exact ih.of_drain_error herror

/-- There are no more buckets than the router sends keys to. -/
theorem card_image_blobKey_le (t : BucketedTable) (keys : Finset Bytes) :
    (keys.image t.blobKey).card ≤ t.router.bucketCount.toNat := by
  have hsubset : keys.image t.blobKey ⊆
      (Finset.range t.router.bucketCount.toNat).image fun n => .pack (.ofNat n) := by
    intro bucket hbucket
    obtain ⟨key, -, rfl⟩ := Finset.mem_image.mp hbucket
    refine Finset.mem_image.mpr ⟨(t.router.index key).toNat, ?_, ?_⟩
    · exact Finset.mem_range.mpr (UInt64.lt_iff_toNat_lt.mp (t.router.index_lt key))
    · rw [UInt64.ofNat_toNat]
      rfl
  calc (keys.image t.blobKey).card
      ≤ _ := Finset.card_le_card hsubset
    _ ≤ (Finset.range t.router.bucketCount.toNat).card := Finset.card_image_le
    _ = t.router.bucketCount.toNat := Finset.card_range _

/-- What a table has staged, by the keys that were put or erased. -/
structure Tally (config : BucketedTable.Config) (keys : List Bytes) (t : BucketedTable) :
    Prop where
  counts : t.overlay.Counts t.place keys
  filed : ∀ bucket changes, t.overlay.staged[bucket]? = some changes →
    ∀ (key : Bytes) change, changes[key]? = some change → t.blobKey key = bucket
  bounded : t.overlay.stagedBlobs ≤ min t.overlay.stagedChanges config.bucketCount.toNat

theorem Touched.tally (h : Touched config keys t) : t.Tally config keys := by
  have htidy := h.reachable.sound.tidy
  have hcounts := h.files.counts htidy fun key key' heq => (Prod.mk.inj heq).2
  refine ⟨hcounts, htidy.allowed, le_min ?_ ?_⟩
  · rw [hcounts.blobs, hcounts.changes]
    exact Finset.card_image_le
  · rw [hcounts.blobs, ← h.reachable.bucketCount_eq]
    exact t.card_image_blobKey_le _

end ShardedRecords.BucketedTable
