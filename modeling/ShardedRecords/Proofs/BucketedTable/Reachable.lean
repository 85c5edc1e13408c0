import ShardedRecords.Proofs.BucketedTable.Basic
import ShardedRecords.Proofs.Overlay.Soundness
import ShardedRecords.Proofs.Wire.Grammar

/-!
# Tables as they are used

A table is used from when it is opened, with any store at each read and each drain.
Every change is staged for the bucket of its key, and all that is cached can be
written: it was read from a message, or it was written to one.
-/
namespace ShardedRecords

/-- No field of the table is too long for the encoding. -/
def Table.Fits (e : Encoding) (t : Table) : Prop := ∀ r ∈ t.records, r.Fits e

namespace Table

variable {e : Encoding}

theorem fits_empty (e : Encoding) : Fits e ∅ := by
  intro r hr
  simp [mem_records_iff] at hr

theorem keeps_fits {Allowed : BlobKey → Bytes → Change → Prop} :
    (blobKind e).Keeps Allowed fun _ table => table.Fits e := by
  intro bucket base changes content blob _ _ hmerge
  obtain ⟨-, hencode⟩ := merge_eq_ok.mp hmerge
  exact (exists_encode_iff.mp ⟨blob, hencode⟩).fits

theorem reads_fits (load : Loader) (bucket : BlobKey) :
    (blobKind e).Reads load (fun _ table => table.Fits e) bucket := by
  intro blob content _ hread
  cases blob with
  | none =>
    cases hread
    exact fits_empty e
  | some blob =>
    intro r hr
    obtain ⟨hkey, hvalue⟩ :=
      fits_of_decode (Except.mapError_eq_ok.mp hread) (mem_records_iff.mp hr)
    exact ⟨hkey, hvalue⟩

end Table

namespace BucketedTable

variable {config : BucketedTable.Config} {t : BucketedTable}

/-- What a table can be after any operations, with any stores behind it. -/
inductive Reachable (config : BucketedTable.Config) : BucketedTable → Prop
  | opened {t : BucketedTable} : ofConfig config = .ok t → Reachable config t
  | put {t : BucketedTable} (key value : Bytes) :
      Reachable config t → Reachable config (t.put key value)
  | erase {t : BucketedTable} (key : Bytes) : Reachable config t → Reachable config (t.erase key)
  | get {t : BucketedTable} (load : Loader) (key : Bytes) :
      Reachable config t → Reachable config (t.get load key).2
  | discard {t : BucketedTable} : Reachable config t → Reachable config t.discard
  | clearCache {t : BucketedTable} : Reachable config t → Reachable config t.clearCache
  | drain {t : BucketedTable} (load : Loader) :
      Reachable config t → Reachable config (t.drain load).2

theorem Reachable.sound (h : Reachable config t) :
    t.overlay.Sound t.Routes fun _ table => table.Fits t.encoding := by
  induction h with
  | opened hopen =>
    obtain ⟨_, -, rfl⟩ := Except.map_eq_ok.mp hopen
    exact .empty
  | put key value _ ih => exact ih.stage rfl
  | erase key _ ih => exact ih.stage rfl
  | @get t load key _ ih =>
    rcases t.get_snd load key with heq | heq <;> rw [heq]
    · exact ih
    · exact ih.fetch (Table.reads_fits load _)
  | discard _ ih => exact ih.discard
  | clearCache _ ih => exact ih.clearCache
  | drain load _ ih => exact ih.drain Table.keeps_fits fun _ => Table.reads_fits load _

end BucketedTable

end ShardedRecords
