import ShardedRecords.Proofs.BucketedTable.Basic
import ShardedRecords.Proofs.Routing.BlobKey

/-!
# Draining a bucketed table

A drain merges every bucket with staged changes, or none. What each bucket held, what
it holds after its changes and what can go wrong with it are said for the single
bucket; the drain succeeds if none goes wrong, and else it fails as the first one does.
All of it holds for every order in which the records of the buckets may be written.
-/
namespace ShardedRecords

/-- The table holds what the changes say under the changed keys, and what the old one
holds under all others. -/
def Table.ChangedBy (old : Table) (changes : Changes) (new : Table) : Prop :=
  ∀ key : Bytes, new[key]? = match changes[key]? with
    | some c => c.value?
    | none => old[key]?

theorem Table.changedBy_iff {old new : Table} {changes : Changes} :
    old.ChangedBy changes new ↔ new = old.applyChanges changes := by
  constructor
  · intro h
    ext1 key
    exact (h key).trans (getElem?_applyChanges old changes key).symm
  · rintro rfl key
    exact getElem?_applyChanges old changes key

namespace BucketedTable

variable {order : BlobKey → RecordOrder} {load : Loader} {t : BucketedTable} {key : BlobKey}
variable {changes : Changes}

/-- What a bucket holds without its staged changes: the cached table, else the stored
one, and nothing if there is none. -/
inductive Holds (load : Loader) (t : BucketedTable) (key : BlobKey) : Table → Prop
  | cached {table : Table} (hcache : t.overlay.cache[key]? = some table) : Holds load t key table
  | missing (hcache : t.overlay.cache[key]? = none) (hload : load key = .ok none) :
      Holds load t key ∅
  | stored {blob : Bytes} {table : Table} (hcache : t.overlay.cache[key]? = none)
      (hload : load key = .ok (some blob)) (hdecode : Table.decode t.encoding blob = .ok table) :
      Holds load t key table

/-- What goes wrong with a bucket: its blob cannot be loaded, or not be decoded, or the
changed table cannot be written. Of several fields that are too long, the order of the records
decides which one is named. -/
inductive Fails (order : BlobKey → RecordOrder) (load : Loader) (t : BucketedTable) (key : BlobKey)
    (changes : Changes) : Fault → Prop
  | out {reason : String} (hcache : t.overlay.cache[key]? = none)
      (hload : load key = .error reason) : Fails order load t key changes (.store reason)
  | corrupt {blob : Bytes} {cause : WireError} (hcache : t.overlay.cache[key]? = none)
      (hload : load key = .ok (some blob)) (hdecode : Table.decode t.encoding blob = .error cause) :
      Fails order load t key changes (.wire cause)
  | oversized {old new : Table} {cause : WireError} (hold : t.Holds load key old)
      (hnew : old.ChangedBy changes new)
      (hencode : new.encodeIn (order key) t.encoding = .error cause) :
      Fails order load t key changes (.wire cause)

/-- The bucket is cached, or its blob is missing or can be loaded and decoded; and the
changed table can be written. -/
def Mergeable (load : Loader) (t : BucketedTable) (key : BlobKey) (changes : Changes) : Prop :=
  ∃ old new, t.Holds load key old ∧ old.ChangedBy changes new ∧ new.Writable t.encoding

theorem holds_iff {old : Table} : t.Holds load key old ↔
    t.overlay.base (Table.blobKindIn order t.encoding) load key = .ok old := by
  rw [Overlay.base_eq_ok]
  constructor
  · rintro (hcache | ⟨hcache, hload⟩ | ⟨hcache, hload, hdecode⟩)
    · exact .inl hcache
    · exact .inr ⟨hcache, none, hload, rfl⟩
    · exact .inr ⟨hcache, some _, hload, Except.mapError_eq_ok.mpr hdecode⟩
  · rintro (hcache | ⟨hcache, blob, hload, hread⟩)
    · exact .cached hcache
    · cases blob with
      | none =>
        cases hread
        exact .missing hcache hload
      | some blob => exact .stored hcache hload (Except.mapError_eq_ok.mp hread)

theorem fails_of_mergeBlob_error {fault : Fault}
    (h : t.overlay.mergeBlob (Table.blobKindIn order t.encoding) load (key, changes) =
      .error fault) : t.Fails order load key changes fault := by
  rcases Overlay.mergeBlob_eq_error.mp h with hbase | ⟨old, hbase, hmerge⟩
  · obtain ⟨hcache, ⟨reason, hload, rfl⟩ | ⟨blob, hload, hread⟩⟩ := Overlay.base_eq_error.mp hbase
    · exact .out hcache hload
    · cases blob with
      | none => cases hread
      | some blob =>
        obtain ⟨cause, hdecode, rfl⟩ := Except.mapError_eq_error.mp hread
        exact .corrupt hcache hload hdecode
  · obtain ⟨cause, hencode, rfl⟩ := Except.mapError_eq_error.mp (Except.map_eq_error.mp hmerge)
    exact .oversized (holds_iff.mpr hbase) (Table.changedBy_iff.mpr rfl) hencode

theorem exists_mergeBlob_iff (order : BlobKey → RecordOrder) :
    (∃ m, t.overlay.mergeBlob (Table.blobKindIn order t.encoding) load (key, changes) = .ok m) ↔
      t.Mergeable load key changes := by
  constructor
  · rintro ⟨m, h⟩
    obtain ⟨-, old, hbase, hmerge⟩ := Overlay.mergeBlob_eq_ok.mp h
    obtain ⟨hnew, hencode⟩ := Table.mergeIn_eq_ok.mp hmerge
    exact ⟨old, m.content, holds_iff.mpr hbase, Table.changedBy_iff.mpr hnew,
      (Table.exists_encodeIn_iff (order key)).mp ⟨_, hencode⟩⟩
  · rintro ⟨old, new, hold, hnew, hwritable⟩
    obtain ⟨blob, hencode⟩ := (Table.exists_encodeIn_iff (order key)).mpr hwritable
    exact ⟨⟨key, new, blob⟩, Overlay.mergeBlob_eq_ok.mpr ⟨rfl, old, holds_iff.mp hold,
      Table.mergeIn_eq_ok.mpr ⟨Table.changedBy_iff.mp hnew, hencode⟩⟩⟩

/-- Whatever the order in which records are written, a drain succeeds exactly if every
bucket with staged changes can be merged, and then hands out one blob for each of them, in
ascending order of the keys: the changed table, which is now cached. It could as well have been
written in any other order. A drain that fails leaves the table as it was, and its fault is that
of the first bucket that cannot be merged. -/
theorem drain_merges_all_or_nothing (order : BlobKey → RecordOrder) (load : Loader)
    (t : BucketedTable) :
    ((∃ blobs, (t.drainIn order load).1 = .ok blobs) ↔
      ∀ (key : BlobKey) changes, t.overlay.staged[key]? = some changes →
        t.Mergeable load key changes) ∧
    (∀ blobs, (t.drainIn order load).1 = .ok blobs →
      (∀ key, (∃ blob, (key, blob) ∈ blobs) ↔ ∃ changes, t.overlay.staged[key]? = some changes) ∧
      (blobs.Pairwise fun a b => a.1.toList < b.1.toList) ∧
      ∃ cache, (t.drainIn order load).2 = { t with overlay := ⟨∅, cache⟩ } ∧
        (∀ key : BlobKey, t.overlay.staged[key]? = none → cache[key]? = t.overlay.cache[key]?) ∧
        ∀ key blob, (key, blob) ∈ blobs → ∃ changes old new,
          t.overlay.staged[key]? = some changes ∧ t.Holds load key old ∧
          old.ChangedBy changes new ∧ cache[key]? = some new ∧ new.HeldBy t.encoding blob ∧
          ∀ rs : List Record, rs.Perm new.records →
            ∃ blob', encode t.encoding (rs.map Record.entry) = .ok blob' ∧
              new.HeldBy t.encoding blob' ∧ blob'.length = blob.length) ∧
    ∀ fault, (t.drainIn order load).1 = .error fault → (t.drainIn order load).2 = t ∧
      ∃ (key : BlobKey) (changes : Changes), t.overlay.staged[key]? = some changes ∧
        t.Fails order load key changes fault ∧
        ∀ (key' : BlobKey) changes', key'.toList < key.toList →
          t.overlay.staged[key']? = some changes' → t.Mergeable load key' changes' := by
  refine ⟨?_, fun blobs h => ?_, fun fault h => ?_⟩
  · simp only [← exists_mergeBlob_iff order]
    exact Overlay.exists_drain_eq_ok_iff
  · rcases t.drainIn_cases order load with ⟨blobs', o, hdrain, heq⟩ | ⟨fault, -, heq⟩ <;>
      rw [heq] at h ⊢
    · cases h
      have hfst := congrArg Prod.fst hdrain
      have hdrained := Overlay.drained_of_drain hdrain ∅
      refine ⟨fun key => Overlay.exists_mem_drain_iff hfst,
        (Overlay.pairwise_of_drain hfst).imp BlobKey.compare_eq_lt_iff.mp, o.cache, ?_,
        fun key hkey => (hdrained.other key hkey).1, ?_⟩
      · rw [← hdrained.staged]
      · intro key blob hmem
        obtain ⟨changes, old, new, hstaged, hbase, hmerge, hcache⟩ :=
          Overlay.exists_merge_of_mem_drain hdrain hmem
        obtain ⟨hnew, hencode⟩ := Table.mergeIn_eq_ok.mp hmerge
        refine ⟨changes, old, new, hstaged, holds_iff.mpr hbase, Table.changedBy_iff.mpr hnew,
          hcache, Table.heldBy_of_encodeIn hencode, fun rs hrs => ?_⟩
        obtain ⟨blob', hencode'⟩ :=
          (Table.exists_encode_perm_iff hrs).mpr
            ((Table.exists_encodeIn_iff (order key)).mp ⟨_, hencode⟩)
        rw [Table.encodeIn_eq] at hencode
        have hperm := hrs.trans ((order key).records_perm new).symm
        exact ⟨blob', hencode', Table.heldBy_of_encode_perm hrs hencode',
          Table.length_of_encode_perm hperm hencode hencode'⟩
    · cases h
  · rcases t.drainIn_cases order load with ⟨blobs, o, -, heq⟩ | ⟨fault', hdrain, heq⟩ <;>
      rw [heq] at h ⊢
    · cases h
    · cases h
      obtain ⟨key, changes, hstaged, hfault, hfirst⟩ :=
        Overlay.exists_first_of_drain_error (congrArg Prod.fst hdrain)
      exact ⟨rfl, key, changes, hstaged, fails_of_mergeBlob_error hfault,
        fun key' changes' hlt hkey' => (exists_mergeBlob_iff order).mp
          (hfirst key' changes' (BlobKey.compare_eq_lt_iff.mpr hlt) hkey')⟩

/-- Of two buckets with staged changes the second is broken, which keeps the first from
being written too; with the blob away, both are written, here in descending order. -/
theorem drain_merges_all_or_nothing_broken_bucket :
    let descending : BlobKey → RecordOrder :=
      fun _ => ⟨fun t => t.toList.reverse, fun t => t.toList.reverse_perm⟩
    let empty : BucketedTable := ⟨⟨4, by decide⟩, .fixed, .empty⟩
    let t := ((empty.put [1] [7]).put [2] [9]).put [5] [8]
    let broken : Loader := fun key => .ok (if key = .pack 3 then some [0] else none)
    let missing : Loader := fun _ => .ok none
    let blobs : List (BlobKey × Bytes) :=
      [(.pack 2, [2, 0, 0, 0, 0, 0, 0, 0, 1, 0, 0, 0, 5, 1, 0, 0, 0, 8,
          1, 0, 0, 0, 1, 1, 0, 0, 0, 7]),
        (.pack 3, [1, 0, 0, 0, 0, 0, 0, 0, 1, 0, 0, 0, 2, 1, 0, 0, 0, 9])]
    ((t.drainIn descending broken).1 = .error (.wire (.truncated 0 8 1)) ∧
        (t.drainIn descending broken).2 = t) ∧
      (t.drainIn descending missing).1 = .ok blobs ∧
      (t.drainIn descending missing).2.overlay.staged = ∅ ∧
      blobs.Pairwise fun a b => a.1.toList < b.1.toList := by
  intro descending empty t broken missing blobs
  have hbroken : (t.drainIn descending broken).1 = .error (.wire (.truncated 0 8 1)) := by
    decide +kernel
  have hmissing : (t.drainIn descending missing).1 = .ok blobs := by decide +kernel
  obtain ⟨-, hsuccess, -⟩ := drain_merges_all_or_nothing descending missing t
  obtain ⟨-, hordered, cache, hcache, -⟩ := hsuccess blobs hmissing
  obtain ⟨-, -, hfailure⟩ := drain_merges_all_or_nothing descending broken t
  exact ⟨⟨hbroken, (hfailure _ hbroken).1⟩, hmissing, by rw [hcache], hordered⟩

end BucketedTable

end ShardedRecords
