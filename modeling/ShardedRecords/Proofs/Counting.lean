import ShardedRecords.Proofs.BucketedTable.Counting
import ShardedRecords.Proofs.PagedArray.Counting

/-!
# The counters say what is pending

At any time the counters of a table and of an array are determined by the keys and indices
that were written since nothing was staged, whatever was read or failed in the meantime.
-/
namespace ShardedRecords

/-- After any operations, with any stores, nothing is staged but what was written since the
last discard or drain without a fault. It is staged once for each key or index, under its own
blob, and blobs are staged for that reason only. -/
theorem staged_is_counted :
    (∀ config t, BucketedTable.Reachable config t → ∃ keys, BucketedTable.Touched config keys t) ∧
    (∀ config keys t, BucketedTable.Touched config keys t → t.Tally config keys) ∧
    (∀ config a, PagedArray.Reachable (fun _ => True) config a →
      ∃ indices, PagedArray.Touched config indices a) ∧
    ∀ config indices a, PagedArray.Touched config indices a → a.Tally config indices :=
  ⟨fun _ _ h => h.exists_touched, fun _ _ _ h => h.tally, fun _ _ h => h.exists_touched,
    fun _ _ _ h => h.tally⟩

/-- A key written twice counts once, a failed drain takes nothing away, and a value of the
wrong length is not counted. -/
theorem staged_is_counted_repeated :
    let out : Loader := fun _ => .error "out"
    let table : BucketedTable := ⟨⟨4, by decide⟩, .fixed, .empty⟩
    let t := ((table.put [1] [7]).erase [2] |>.drain out).2.put [1] [8]
    let array : PagedArray := ⟨2, 2, .empty⟩
    let a := (((array.set 1 [7, 7]).2.set 2 [8]).2.set 0 [9, 9]).2
    ((∃ keys, BucketedTable.Touched ⟨4, .fixed⟩ keys t) ∧ t.overlay.stagedChanges = 2 ∧
        t.overlay.stagedBlobs = 2) ∧
      (∃ indices, PagedArray.Touched ⟨2, 2⟩ indices a) ∧ a.overlay.stagedChanges = 2 ∧
        a.overlay.stagedBlobs = 1 := by
  intro out table t array a
  have hout : ((table.put [1] [7]).erase [2] |>.drain out).1 = .error (.store "out") := by
    decide +kernel
  have hkeys : BucketedTable.Touched ⟨4, .fixed⟩ [[1], [2], [1]] t :=
    .put [1] [8] (.failed hout (.erase [2] (.put [1] [7] (.opened rfl))))
  have hindices : PagedArray.Touched ⟨2, 2⟩ [1, 0] a :=
    .accepted rfl (.refused rfl (.accepted rfl (.opened rfl)))
  obtain ⟨hexists, hcounted, hexists', hcounted'⟩ := staged_is_counted
  have htable := (hcounted _ _ _ hkeys).counts
  have harray := (hcounted' _ _ _ hindices).counts
  refine ⟨⟨hexists _ _ hkeys.reachable, htable.changes, ?_⟩,
    hexists' _ _ hindices.reachable, harray.changes, ?_⟩
  · rw [htable.blobs]
    decide +kernel
  · rw [harray.blobs]
    decide +kernel

end ShardedRecords
