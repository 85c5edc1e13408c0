import ShardedRecords.BucketedTable.Basic
import ShardedRecords.Proofs.Overlay.Coherence
import ShardedRecords.Proofs.Wire.RoundTrip

/-!
# Operations of bucketed tables

A merged bucket reads back as the changed table, and what is read of a key is its
binding in the table that its changes go on top of.
-/
namespace ShardedRecords

namespace Table

section

variable {order : BlobKey → RecordOrder} {e : Encoding} {bucket : BlobKey} {t t' : Table}
variable {changes : Changes} {blob : Bytes}

theorem mergeIn_eq_ok : (blobKindIn order e).merge bucket t changes = .ok (t', blob) ↔
    t' = t.applyChanges changes ∧ t'.encodeIn (order bucket) e = .ok blob := by
  rw [blobKindIn, Except.map_eq_ok]
  constructor
  · rintro ⟨blob', henc, h⟩
    cases h
    exact ⟨rfl, Except.mapError_eq_ok.mp henc⟩
  · rintro ⟨rfl, henc⟩
    exact ⟨blob, Except.mapError_eq_ok.mpr henc, rfl⟩

theorem merge_eq_ok : (blobKind e).merge bucket t changes = .ok (t', blob) ↔
    t' = t.applyChanges changes ∧ t'.encode e = .ok blob := mergeIn_eq_ok

end

theorem faithful_blobKind (e : Encoding) : (blobKind e).Faithful := by
  intro bucket t changes t' blob h
  exact Except.mapError_eq_ok.mpr (heldBy_of_encode (merge_eq_ok.mp h).2).decode

theorem applyChanges_union (t : Table) (first second : Changes) :
    (t.applyChanges first).applyChanges second = t.applyChanges (first ∪ second) := by
  ext1 key
  simp only [getElem?_applyChanges, Std.ExtTreeMap.getElem?_union]
  cases second[key]? <;> rfl

theorem composes_blobKind (e : Encoding) : (blobKind e).Composes := by
  intro bucket t first t' blob h second merged
  obtain ⟨rfl, -⟩ := merge_eq_ok.mp h
  simp only [blobKind, blobKindIn, applyChanges_union]

end Table

namespace BucketedTable

/-- A change is staged for the bucket of its key. -/
def Routes (t : BucketedTable) (bucket : BlobKey) (key : Bytes) (_ : Change) : Prop :=
  t.blobKey key = bucket

theorem get_snd (load : Loader) (t : BucketedTable) (key : Bytes) :
    (t.get load key).2 = t ∨ (t.get load key).2 = { t with
      overlay := (t.overlay.fetch (Table.blobKind t.encoding) load (t.blobKey key)).2 } := by
  rw [get]
  cases t.overlay.change? (t.blobKey key) key with
  | some c => exact .inl rfl
  | none => exact .inr rfl

/-- A key without a pending change is looked up in what its bucket is based on. -/
theorem get_fst (load : Loader) (t : BucketedTable) (key : Bytes) : (t.get load key).1 =
    match t.overlay.change? (t.blobKey key) key with
    | some c => .ok c.value?
    | none => (t.overlay.base (Table.blobKind t.encoding) load (t.blobKey key)).map (·[key]?) := by
  rw [get]
  cases t.overlay.change? (t.blobKey key) key with
  | some c => rfl
  | none => exact congrArg (Except.map _) (Overlay.fetch_fst ..)

theorem drain_eq (load : Loader) (t : BucketedTable) : t.drain load =
    ((t.overlay.drain (Table.blobKind t.encoding) load).1,
      { t with overlay := (t.overlay.drain (Table.blobKind t.encoding) load).2 }) := rfl

/-- A drain hands out the merged blobs, or fails and changes nothing. -/
theorem drainIn_cases (order : BlobKey → RecordOrder) (load : Loader) (t : BucketedTable) :
    (∃ blobs o, t.overlay.drain (Table.blobKindIn order t.encoding) load = (.ok blobs, o) ∧
      t.drainIn order load = (.ok blobs, { t with overlay := o })) ∨
    ∃ fault, t.overlay.drain (Table.blobKindIn order t.encoding) load = (.error fault, t.overlay) ∧
      t.drainIn order load = (.error fault, t) := by
  rcases hd : t.overlay.drain (Table.blobKindIn order t.encoding) load with ⟨fault | blobs, o⟩
  · obtain rfl := Overlay.eq_of_drain_error hd
    refine .inr ⟨fault, rfl, ?_⟩
    rw [drainIn, hd]
  · refine .inl ⟨blobs, o, rfl, ?_⟩
    rw [drainIn, hd]

theorem drain_cases (load : Loader) (t : BucketedTable) :
    (∃ blobs o, t.overlay.drain (Table.blobKind t.encoding) load = (.ok blobs, o) ∧
      t.drain load = (.ok blobs, { t with overlay := o })) ∨
    ∃ fault, t.overlay.drain (Table.blobKind t.encoding) load = (.error fault, t.overlay) ∧
      t.drain load = (.error fault, t) :=
  t.drainIn_cases (fun _ => .ascending) load

end BucketedTable

end ShardedRecords
