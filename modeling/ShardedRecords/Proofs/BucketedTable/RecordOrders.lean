import ShardedRecords.Proofs.BucketedTable.Drain
import ShardedRecords.Proofs.Overlay.Confinement

/-!
# Records in another order

A table does not say in which order its records are written. Two drains of one table that
write in different orders hand out blobs of the same records, or name different fields of one
table that are too long. What is staged and cached afterwards is the same.
-/
namespace ShardedRecords

namespace Encoding

/-- The outcomes of writing one table, its records in one order and in another. -/
def SameRecords (e : Encoding) (x x' : Except WireError Bytes) : Prop :=
  ∃ (t : Table) (rs rs' : List Record), rs.Perm t.records ∧ rs'.Perm t.records ∧
    encode e (rs.map Record.entry) = x ∧ encode e (rs'.map Record.entry) = x'

/-- Blobs of the same tables under the same keys, in the same order of the keys. -/
def SameBlobs (e : Encoding) : List (BlobKey × Bytes) → List (BlobKey × Bytes) → Prop :=
  List.Forall₂ fun b b' => b.1 = b'.1 ∧ e.SameRecords (.ok b.2) (.ok b'.2)

theorem sameRecords_encodeIn (e : Encoding) (order order' : RecordOrder) (t : Table) :
    e.SameRecords (t.encodeIn order e) (t.encodeIn order' e) :=
  ⟨t, order.records t, order'.records t, order.records_perm t, order'.records_perm t,
    (t.encodeIn_eq order e).symm, (t.encodeIn_eq order' e).symm⟩

end Encoding

/-- Whether a table can be written does not depend on the order. -/
theorem Table.alike_blobKindIn (order order' : BlobKey → RecordOrder) (e : Encoding) :
    (blobKindIn order e).Alike (blobKindIn order' e)
      (fun bucket base changes f f' => ∃ cause cause',
        (base.applyChanges changes).encodeIn (order bucket) e = .error cause ∧
        (base.applyChanges changes).encodeIn (order' bucket) e = .error cause' ∧
        f = .wire cause ∧ f' = .wire cause')
      fun b b' => e.SameRecords (.ok b) (.ok b') where
  read := rfl
  merge bucket base changes := by
    have hwritten := e.sameRecords_encodeIn (order bucket) (order' bucket)
      (base.applyChanges changes)
    have hboth : (∃ buf, (base.applyChanges changes).encodeIn (order bucket) e = .ok buf) ↔
        ∃ buf, (base.applyChanges changes).encodeIn (order' bucket) e = .ok buf :=
      (exists_encodeIn_iff _).trans (exists_encodeIn_iff _).symm
    simp only [blobKindIn]
    generalize (base.applyChanges changes).encodeIn (order bucket) e = x,
      (base.applyChanges changes).encodeIn (order' bucket) e = y at hwritten hboth
    cases x with
    | ok buf =>
      obtain ⟨buf', rfl⟩ := hboth.mp ⟨buf, rfl⟩
      exact .ok ⟨rfl, hwritten⟩
    | error cause => cases y with
      | ok buf' =>
        obtain ⟨buf, hbuf⟩ := hboth.mpr ⟨buf', rfl⟩
        cases hbuf
      | error cause' => exact .error ⟨cause, cause', rfl, rfl, rfl, rfl⟩

namespace BucketedTable

/-- Equal faults, or the refusals to write the changed table of one bucket, each with the order
in which it was to be written. -/
inductive FailsAlike (order order' : BlobKey → RecordOrder) (load : Loader) (t : BucketedTable) :
    Fault → Fault → Prop
  | same (f : Fault) : FailsAlike order order' load t f f
  | refused {bucket : BlobKey} {changes : Changes} {old new : Table} {cause cause' : WireError}
      (hstaged : t.overlay.staged[bucket]? = some changes) (hold : t.Holds load bucket old)
      (hnew : old.ChangedBy changes new)
      (h : new.encodeIn (order bucket) t.encoding = .error cause)
      (h' : new.encodeIn (order' bucket) t.encoding = .error cause') :
      FailsAlike order order' load t (.wire cause) (.wire cause')

/-- The orders show in the blobs, or in which field is named, and in nothing else. -/
theorem related_drainIn (order order' : BlobKey → RecordOrder) (load : Loader)
    (t : BucketedTable) :
    Except.Related (t.FailsAlike order order' load) t.encoding.SameBlobs (t.drainIn order load).1
        (t.drainIn order' load).1 ∧
      (t.drainIn order load).2 = (t.drainIn order' load).2 := by
  obtain ⟨hanswer, hstate⟩ :=
    Overlay.related_drain (Table.alike_blobKindIn order order' t.encoding) load t.overlay
  constructor
  · refine hanswer.imp ?_ fun _ _ hblobs => hblobs
    rintro _ _ (_ | ⟨hstaged, hbase, cause, cause', h, h', rfl, rfl⟩)
    · exact .same _
    · exact .refused (Std.ExtTreeMap.mem_toList_iff_getElem?_eq_some.mp hstaged)
        (holds_iff.mpr hbase) (Table.changedBy_iff.mpr rfl) h h'
  · exact congrArg (fun overlay => { t with overlay }) hstate

end BucketedTable

end ShardedRecords
