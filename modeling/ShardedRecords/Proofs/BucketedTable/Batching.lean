import ShardedRecords.Proofs.BucketedTable.Drain
import ShardedRecords.Proofs.BucketedTable.FlatTable
import ShardedRecords.Proofs.Session.Batching
import ShardedRecords.Proofs.Wire.Grammar

/-!
# Batched changes to a bucketed table

In which order different keys are changed, how often, and when some of it is committed,
does not matter to the store: in the end the bucket of each changed key holds what it
held at first, with the last changes to its keys.
-/
namespace ShardedRecords

/-- The key and the change of an operation that stages one. -/
def TableOp.change? : TableOp → Option (Bytes × Change)
  | .put key value => some (key, .put value)
  | .erase key => some (key, .erase)
  | _ => none

/-- A stored field is short enough to be stored. -/
theorem Table.fits_of_ofBlob {e : Encoding} {blob : Option Bytes} {t : Table}
    (h : ofBlob e blob = .ok t) {key value : Bytes} (hkey : t[key]? = some value) :
    key.length < e.lengthLimit ∧ value.length < e.lengthLimit := by
  cases blob with
  | none =>
    cases h
    simp at hkey
  | some blob => exact fits_of_decode (Except.mapError_eq_ok.mp h) hkey

namespace BucketedTable

variable {t : BucketedTable} {store store' : BlobStore} {last : Changes}

def locate (t : BucketedTable) (key : Bytes) : BlobKey × Bytes := (t.blobKey key, key)

theorem locate_injective (t : BucketedTable) : Function.Injective t.locate := by
  intro key key' h
  exact (Prod.mk.inj h).2

/-- The changes to the keys of one bucket. -/
def changesIn (t : BucketedTable) (bucket : BlobKey) (changes : Changes) : Changes :=
  changes.filter fun key _ => t.blobKey key = bucket

theorem getElem?_changesIn (t : BucketedTable) (bucket : BlobKey) (changes : Changes)
    (key : Bytes) : (t.changesIn bucket changes)[key]? =
      if t.blobKey key = bucket then changes[key]? else none := by
  unfold changesIn
  rw [Std.ExtTreeMap.getElem?_filter']
  cases changes[key]? <;> simp [Option.filter]

theorem getElem?_of_changesIn {bucket : BlobKey} {changes : Changes} {key : Bytes} {c : Change}
    (h : (t.changesIn bucket changes)[key]? = some c) : changes[key]? = some c := by
  rw [getElem?_changesIn] at h
  split at h
  · exact h
  · cases h

/-- The bucket of each changed key can be read and, with all the changes, be written. -/
structure Takes (t : BucketedTable) (store : BlobStore) (last : Changes) : Prop where
  fields : t.encoding = .fixed → ∀ (key value : Bytes), last[key]? = some (.put value) →
    key.length < UInt32.size ∧ value.length < UInt32.size
  bucket : ∀ key ∈ last, ∃ old, Table.ofBlob t.encoding store[t.blobKey key]? = .ok old ∧
    (t.encoding.messageBytes
      (old.applyChanges (t.changesIn (t.blobKey key) last)).records).length < UInt64.size

/-- Of the new store, the buckets of the changed keys hold what they held in the old one,
changed, and all other blobs are those of the old one. -/
structure Updates (t : BucketedTable) (last : Changes) (store store' : BlobStore) : Prop where
  other : ∀ bucket : BlobKey, (∀ key ∈ last, t.blobKey key ≠ bucket) →
    store'[bucket]? = store[bucket]?
  bucket : ∀ key ∈ last, ∃ old new blob, Table.ofBlob t.encoding store[t.blobKey key]? = .ok old ∧
    old.ChangedBy (t.changesIn (t.blobKey key) last) new ∧ new.encode t.encoding = .ok blob ∧
    store'[t.blobKey key]? = some blob

theorem change?_stageAll_iff {bucket : BlobKey} {key : Bytes} {c : Change} :
    (Overlay.stageAll t.locate last.toList : Overlay Bytes Change Table).change? bucket key =
      some c ↔ (t.changesIn bucket last)[key]? = some c := by
  simp only [Overlay.change?_stageAll_eq_some_iff t.locate_injective, lookup_reverse_toList,
    getElem?_changesIn, locate, Prod.mk.injEq]
  constructor
  · rintro ⟨i, ⟨hbucket, rfl⟩, hc⟩
    rwa [if_pos hbucket]
  · intro hc
    by_cases hbucket : t.blobKey key = bucket
    · rw [if_pos hbucket] at hc
      exact ⟨key, ⟨hbucket, rfl⟩, hc⟩
    · simp [hbucket] at hc

/-- Staged are the buckets of the changed keys, each with the changes to its keys. -/
theorem staged_stageAll_eq_some_iff {bucket : BlobKey} {changes : Changes} :
    (Overlay.stageAll t.locate last.toList : Overlay Bytes Change Table).staged[bucket]? =
        some changes ↔
      changes = t.changesIn bucket last ∧ ∃ key ∈ last, t.blobKey key = bucket := by
  have hforward : ∀ {changes : Changes},
      (Overlay.stageAll t.locate last.toList : Overlay Bytes Change Table).staged[bucket]? =
        some changes → changes = t.changesIn bucket last := by
    intro changes hs
    ext1 key
    ext c
    rw [← change?_stageAll_iff]
    simp [Overlay.change?, hs]
  constructor
  · intro hs
    obtain rfl := hforward hs
    have htidy := Overlay.tidy_stageAll (γ := Table) t.locate last.toList
    obtain ⟨key, c, hc⟩ := htidy.nonempty bucket _ hs
    obtain ⟨i, hi⟩ := htidy.allowed bucket _ hs key c hc
    cases hi
    have hkey : key ∈ last := Std.ExtTreeMap.mem_iff_isSome_getElem?.mpr
      (Option.isSome_of_eq_some (getElem?_of_changesIn hc))
    exact ⟨rfl, key, hkey, rfl⟩
  · rintro ⟨rfl, key, hkey, rfl⟩
    obtain ⟨c, hc⟩ := Option.isSome_iff_exists.mp (Std.ExtTreeMap.mem_iff_isSome_getElem?.mp hkey)
    have hchange : (t.changesIn (t.blobKey key) last)[key]? = some c := by
      rw [getElem?_changesIn, if_pos rfl, hc]
    obtain ⟨changes, hs, -⟩ := Option.bind_eq_some_iff.mp (change?_stageAll_iff.mpr hchange)
    rw [hs, hforward hs]

theorem Takes.writable (h : t.Takes store last) {key : Bytes} {old : Table}
    (hold : Table.ofBlob t.encoding store[t.blobKey key]? = .ok old)
    (hsize : (t.encoding.messageBytes
      (old.applyChanges (t.changesIn (t.blobKey key) last)).records).length < UInt64.size) :
    (old.applyChanges (t.changesIn (t.blobKey key) last)).Writable t.encoding := by
  have hbody : ((old.applyChanges (t.changesIn (t.blobKey key) last)).records.flatMap
      (Record.bytes t.encoding)).length < UInt64.size := by
    simp only [Encoding.messageBytes, List.length_append] at hsize
    omega
  refine ⟨Record.fits_of_length_flatMap (fun hfixed r hr => ?_) hbody, hbody⟩
  rw [Table.mem_records_iff, Table.getElem?_applyChanges] at hr
  cases hc : (t.changesIn (t.blobKey key) last)[r.key]? with
  | none =>
    rw [hc] at hr
    have hfits := Table.fits_of_ofBlob hold hr
    rwa [hfixed] at hfits
  | some c =>
    rw [hc] at hr
    cases c with
    | erase => cases hr
    | put value =>
      cases hr
      exact h.fields hfixed r.key r.value (getElem?_of_changesIn hc)

theorem Takes.exists_merge (h : t.Takes store last) {bucket : BlobKey} {changes : Changes}
    (hs : (Overlay.stageAll t.locate last.toList : Overlay Bytes Change Table).staged[bucket]? =
      some changes) :
    ∃ base merged, (Table.blobKind t.encoding).read store[bucket]? = .ok base ∧
      (Table.blobKind t.encoding).merge bucket base changes = .ok merged := by
  obtain ⟨rfl, key, hkey, rfl⟩ := staged_stageAll_eq_some_iff.mp hs
  obtain ⟨old, hold, hsize⟩ := h.bucket key hkey
  obtain ⟨blob, hencode⟩ := Table.exists_encode_iff.mpr (h.writable hold hsize)
  exact ⟨old, _, hold, Table.merge_eq_ok.mpr ⟨rfl, hencode⟩⟩

theorem updates_of_merged (h : store.Merged (Table.blobKind t.encoding)
    (Overlay.stageAll t.locate last.toList : Overlay Bytes Change Table).staged store') :
    t.Updates last store store' := by
  constructor
  · intro bucket hbucket
    apply h.other bucket
    apply Option.eq_none_iff_forall_ne_some.mpr
    intro changes hs
    obtain ⟨-, key, hkey, heq⟩ := staged_stageAll_eq_some_iff.mp hs
    exact hbucket key hkey heq
  · intro key hkey
    obtain ⟨old, new, blob, hold, hmerge, hblob⟩ :=
      h.merged (t.blobKey key) _ (staged_stageAll_eq_some_iff.mpr ⟨rfl, key, hkey, rfl⟩)
    obtain ⟨hnew, hencode⟩ := Table.merge_eq_ok.mp hmerge
    exact ⟨old, new, blob, hold, Table.changedBy_iff.mpr hnew, hencode, hblob⟩

end BucketedTable

namespace TableSession

variable {table : BucketedTable} {config : BucketedTable.Config}

theorem stagesIn (hopen : BucketedTable.ofConfig config = .ok table) :
    Session.StagesIn step .commit TableOp.change? (Table.blobKind table.encoding) table.locate
      BucketedTable.overlay (Consistent table) where
  coherent h := h.encoding ▸ h.coherent
  write?_commit := rfl
  write outage s op w hw h := by
    have hstage : ∀ key c, (s.front.stage key c).overlay =
        s.front.overlay.stage (table.locate key).1 (table.locate key).2 c := by
      intro key c
      unfold BucketedTable.stage BucketedTable.locate
      rw [h.blobKey_eq]
    cases op with
    | put key value =>
      cases hw
      exact ⟨(h.step hopen outage (.put key value) s trivial).1, rfl, hstage key (.put value)⟩
    | erase key =>
      cases hw
      exact ⟨(h.step hopen outage (.erase key) s trivial).1, rfl, hstage key .erase⟩
    | _ => cases hw
  commit outage s h := by
    refine ⟨(h.step hopen outage .commit s trivial).1, ?_⟩
    rw [← h.encoding]
    rcases commit_cases s outage with ⟨blobs, o, hd, hstep⟩ | ⟨fault, hd, hstep⟩
    · rw [hd, hstep]
      exact .inl ⟨blobs, o, rfl, rfl, rfl, rfl⟩
    · rw [hstep]
      exact .inr ⟨fault, hd, rfl⟩

/-- After whatever changes and commits, the last commit updates the buckets with the last
change to each key. -/
theorem exists_commitsTo (hopen : BucketedTable.ofConfig config = .ok table) {store : BlobStore}
    {last : Changes} (h : table.Takes store last) :
    ∃ store', table.Updates last store store' ∧
      Session.CommitsTo step .commit TableOp.change? ⟨table, store⟩ last store' := by
  have hempty : table.overlay.staged = ∅ := by
    obtain ⟨router, -, rfl⟩ := Except.map_eq_ok.mp hopen
    rfl
  obtain ⟨store', hmerged, hcommits⟩ := (stagesIn hopen).exists_commitsTo
    (Table.faithful_blobKind _) (Table.composes_blobKind _) table.locate_injective
    (consistent_of_ofConfig hopen store).1 hempty rfl fun _ _ => h.exists_merge
  exact ⟨store', BucketedTable.updates_of_merged hmerged, hcommits⟩

end TableSession

end ShardedRecords
