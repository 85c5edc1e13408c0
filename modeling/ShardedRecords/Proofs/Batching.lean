import ShardedRecords.Proofs.BucketedTable.Batching
import ShardedRecords.Proofs.PagedArray.Batching

/-!
# Batching leaves no trace in the store

Which store a session ends in depends on the store that it began with and on the last
write to each key or index. When the writes to different places were made, what was
overwritten, and where the commits came, cannot be seen in it.
-/
namespace ShardedRecords

/-- From one store, all histories with the same last writes end in one store when they are
committed. The buckets of a table hold the changed tables, and of the pages of an array
the written slots are new, byte for byte. -/
theorem batching_leaves_no_trace :
    (∀ (config : BucketedTable.Config) (table : BucketedTable),
      BucketedTable.ofConfig config = .ok table →
      ∀ (store : BlobStore) (last : Changes), table.Takes store last →
      ∃ store', table.Updates last store store' ∧
        Session.CommitsTo TableSession.step .commit TableOp.change? ⟨table, store⟩ last store') ∧
    ∀ (config : PagedArray.Config) (array : PagedArray),
      PagedArray.ofConfig config = .ok array →
      ∀ (store : BlobStore) (last : Std.ExtTreeMap UInt64 Bytes), array.Takes store last →
      ∃ store', array.Updates last store store' ∧
        Session.CommitsTo ArraySession.step .commit (ArrayOp.write? array.width) ⟨array, store⟩
          last store' :=
  ⟨fun _ _ hopen _ _ h => TableSession.exists_commitsTo hopen h,
    fun _ _ hopen _ _ h => ArraySession.exists_commitsTo hopen h⟩

/-- A table with a broken bucket that is not written to, and an array with one page of two
slots and a byte behind them. Of each, one history overwrites and commits in between, once
while the store is out; another makes the last writes alone. -/
theorem batching_leaves_no_trace_interleaved :
    let available : Outage := fun _ => none
    let out : Outage := fun _ => some "out"
    (let table : BucketedTable := ⟨⟨4, by decide⟩, .fixed, .empty⟩
      let store := BlobStore.ofIndexed [(0, [0])]
      let last : Changes := lastByKeyMap [([1], .erase), ([2], .put [9])]
      let history : History TableOp :=
        [(available, .put [1] [7]), (available, .commit), (available, .put [2] [8]),
          (out, .commit), (available, .put [2] [9]), (available, .erase [1])]
      let s := Session.after TableSession.step ⟨table, store⟩ history
      (BucketedTable.ofConfig ⟨4, .fixed⟩ = .ok table ∧ table.Takes store last) ∧
        (TableSession.step available s .commit).2.store.toList =
          [(.pack 0, [0]), (.pack 2, [0, 0, 0, 0, 0, 0, 0, 0]),
            (.pack 3, [1, 0, 0, 0, 0, 0, 0, 0, 1, 0, 0, 0, 2, 1, 0, 0, 0, 9])]) ∧
    let array : PagedArray := ⟨2, 2, .empty⟩
    let store := BlobStore.ofIndexed [(0, [1, 2, 3, 4, 5])]
    let last : Std.ExtTreeMap UInt64 Bytes := lastByKeyMap [(0, [9, 9]), (1, [8, 8])]
    let history : History ArrayOp :=
      [(available, .set 1 [7, 7]), (available, .commit), (available, .set 1 [8, 8]),
        (out, .commit), (available, .set 0 [9, 9])]
    let s := Session.after ArraySession.step ⟨array, store⟩ history
    (PagedArray.ofConfig ⟨2, 2⟩ = .ok array ∧ array.Takes store last) ∧
      (ArraySession.step available s .commit).2.store.toList = [(.pack 0, [9, 9, 8, 8, 5])] := by
  intro available out
  constructor
  · intro table store last history s
    have hopen : BucketedTable.ofConfig ⟨4, .fixed⟩ = .ok table := rfl
    have htakes : table.Takes store last := by
      constructor
      · intro _ key value hkey
        have hall : ∀ entry ∈ last.toList,
            entry.1.length = 1 ∧ (entry.2 = .erase ∨ entry.2 = .put [9]) := by decide +kernel
        obtain ⟨hlength, herase | hput⟩ :=
          hall _ (Std.ExtTreeMap.mem_toList_iff_getElem?_eq_some.mpr hkey)
        · cases herase
        · cases hput
          exact ⟨by rw [hlength]; decide, by decide⟩
      · intro key hkey
        have hall : ∀ key ∈ last.keys, store[table.blobKey key]? = none ∧
            (table.encoding.messageBytes ((∅ : Table).applyChanges
              (table.changesIn (table.blobKey key) last)).records).length < UInt64.size := by
          decide +kernel
        obtain ⟨hnone, hsize⟩ := hall key (Std.ExtTreeMap.mem_keys.mpr hkey)
        refine ⟨∅, ?_, hsize⟩
        rw [hnone]
        rfl
    obtain ⟨store', -, hcommits⟩ := batching_leaves_no_trace.1 _ table hopen store last htakes
    let short : History TableOp := [(available, .erase [1]), (available, .put [2] [9])]
    have hwrites : lastByKeyMap (Session.writes TableOp.change? history) = last :=
      Std.ExtTreeMap.ext_toList (.of_eq (by decide +kernel))
    have hlong := hcommits history available (by simp [history, TableOp.change?]) hwrites
      fun _ => rfl
    have hshort := hcommits short available (by simp [short, TableOp.change?]) rfl fun _ => rfl
    refine ⟨⟨hopen, htakes⟩, ?_⟩
    rw [hlong.2, ← hshort.2]
    decide +kernel
  · intro array store last history s
    have hopen : PagedArray.ofConfig ⟨2, 2⟩ = .ok array := rfl
    have htakes : array.Takes store last := by
      constructor
      · intro key blob hblob
        have hall : ∀ entry ∈ store.toList, entry.2.length < UInt64.size / 2 := by decide +kernel
        exact hall _ (Std.ExtTreeMap.mem_toList_iff_getElem?_eq_some.mpr hblob)
      · intro index value hvalue
        have hall : ∀ entry ∈ last.toList, entry.2.length = array.width := by decide +kernel
        exact hall _ (Std.ExtTreeMap.mem_toList_iff_getElem?_eq_some.mpr hvalue)
      · intro index hindex
        have hall : ∀ entry ∈ last.toList,
            (FlatArray.stored array store).committed entry.1 ≠ none := by decide +kernel
        obtain ⟨value, hvalue⟩ :=
          Option.isSome_iff_exists.mp (Std.ExtTreeMap.mem_iff_isSome_getElem?.mp hindex)
        exact hall (index, value) (Std.ExtTreeMap.mem_toList_iff_getElem?_eq_some.mpr hvalue)
    obtain ⟨store', -, hcommits⟩ := batching_leaves_no_trace.2 _ array hopen store last htakes
    let short : History ArrayOp := [(available, .set 0 [9, 9]), (available, .set 1 [8, 8])]
    have hwidth : array.width = 2 := rfl
    have hwrites : lastByKeyMap (Session.writes (ArrayOp.write? array.width) history) = last :=
      Std.ExtTreeMap.ext_toList (.of_eq (by decide +kernel))
    have hlong := hcommits history available (by simp [history, ArrayOp.write?, hwidth]) hwrites
      fun _ => rfl
    have hshort := hcommits short available (by simp [short, ArrayOp.write?, hwidth]) rfl
      fun _ => rfl
    refine ⟨⟨hopen, htakes⟩, ?_⟩
    rw [hlong.2, ← hshort.2]
    decide +kernel

end ShardedRecords
