import ShardedRecords.Proofs.BucketedTable.FlatTable
import ShardedRecords.Proofs.Overlay.Soundness
import ShardedRecords.Proofs.Routing.BlobKey
import ShardedRecords.Proofs.Wire.Grammar

/-!
# Every key in its bucket

A store is well placed for a table if each of its blobs can be decoded, is filed under
one of the table's buckets, and holds keys of that bucket only. Sessions keep it so, as
long as the store is changed by commits only. So a key is stored in one place at most,
and it is the place where it is looked for.
-/
namespace ShardedRecords

namespace BlobStore

variable {s : BlobStore} {writes : List (BlobKey × Bytes)}

theorem mem_apply {key : BlobKey} (h : key ∈ s) : key ∈ s.apply writes := by
  induction writes generalizing s with
  | nil => exact h
  | cons write writes ih => exact ih (Std.ExtTreeMap.mem_insert.mpr (.inr h))

/-- A stored blob was there before, or it is one of those that were written. -/
theorem getElem?_apply {key : BlobKey} {blob : Bytes} (h : (s.apply writes)[key]? = some blob) :
    s[key]? = some blob ∨ (key, blob) ∈ writes := by
  induction writes generalizing s with
  | nil => exact .inl h
  | cons write writes ih =>
    rcases ih h with hold | hmem
    · simp only [Std.ExtTreeMap.getElem?_insert, Std.compare_eq_iff_eq] at hold
      split at hold
      · subst key
        cases hold
        exact .inr List.mem_cons_self
      · exact .inl hold
    · exact .inr (List.mem_cons_of_mem _ hmem)

end BlobStore

/-- No two records of the message have the same key. -/
def RecordStream.KeysOnce (e : Encoding) (blob : Bytes) : Prop :=
  ∃ rs, Yields e blob rs ∧ (rs.map Record.key).Nodup

theorem Table.keysOnce_of_encode {e : Encoding} {t : Table} {blob : Bytes}
    (h : t.encode e = .ok blob) : RecordStream.KeysOnce e blob := by
  rw [encode_eq] at h
  refine ⟨t.records, RecordStream.yields_of_encode h, ?_⟩
  have hkeys : t.records.map Record.key = t.keys := by
    simp only [records, List.map_map, ← Std.ExtTreeMap.map_fst_toList_eq_keys, Function.comp_def]
  rw [hkeys]
  exact Std.ExtTreeMap.nodup_keys

namespace BucketedTable

variable {t : BucketedTable} {store : BlobStore} {bucket : BlobKey} {content : Table}

/-- The bucket is one of the table's, and the contents have keys of that bucket only. -/
structure InBucket (t : BucketedTable) (bucket : BlobKey) (content : Table) : Prop where
  index : ∃ i < t.router.bucketCount, bucket = .pack i
  keys : ∀ key ∈ content, t.blobKey key = bucket

/-- What is filed under the bucket can be decoded, and has its place there. -/
def Places (t : BucketedTable) (bucket : BlobKey) (blob : Bytes) : Prop :=
  ∃ content, Table.decode t.encoding blob = .ok content ∧ t.InBucket bucket content

def WellPlaced (t : BucketedTable) (store : BlobStore) : Prop :=
  ∀ (bucket : BlobKey) blob, store[bucket]? = some blob → t.Places bucket blob

/-- The key occurs in the blob that is stored under the bucket. -/
def StoredIn (t : BucketedTable) (store : BlobStore) (key : Bytes) (bucket : BlobKey) : Prop :=
  ∃ blob content, store[bucket]? = some blob ∧ Table.decode t.encoding blob = .ok content ∧
    key ∈ content

theorem WellPlaced.eq_blobKey (h : t.WellPlaced store) {key : Bytes}
    (hkey : t.StoredIn store key bucket) : bucket = t.blobKey key := by
  obtain ⟨blob, content, hblob, hdecode, hmem⟩ := hkey
  obtain ⟨content', hdecode', hplace⟩ := h bucket blob hblob
  cases hdecode.symm.trans hdecode'
  exact (hplace.keys key hmem).symm

theorem inBucket_empty (t : BucketedTable) (key : Bytes) : t.InBucket (t.blobKey key) ∅ := by
  refine ⟨⟨_, t.router.index_lt key, rfl⟩, fun key' hmem => ?_⟩
  exact absurd hmem Std.ExtTreeMap.not_mem_empty

theorem InBucket.applyChanges {changes : Changes} (h : t.InBucket bucket content)
    (hchanges : ∀ (key : Bytes) c, changes[key]? = some c → t.blobKey key = bucket) :
    t.InBucket bucket (content.applyChanges changes) := by
  refine ⟨h.index, fun key hmem => ?_⟩
  rw [Std.ExtTreeMap.mem_iff_isSome_getElem?, Table.getElem?_applyChanges] at hmem
  cases hc : changes[key]? with
  | some c => exact hchanges key c hc
  | none =>
    simp only [hc] at hmem
    exact h.keys key (Std.ExtTreeMap.mem_iff_isSome_getElem?.mpr hmem)

theorem keeps_inBucket (t : BucketedTable) (e : Encoding) :
    (Table.blobKind e).Keeps t.Routes t.InBucket := by
  intro bucket base changes content blob hbase hchanges hmerge
  obtain ⟨rfl, -⟩ := Table.merge_eq_ok.mp hmerge
  exact hbase.applyChanges hchanges

theorem WellPlaced.reads (h : t.WellPlaced store) (outage : Outage) (key : Bytes) :
    (Table.blobKind t.encoding).Reads (store.loader outage) t.InBucket (t.blobKey key) := by
  intro blob content hload hread
  obtain ⟨-, rfl⟩ := BlobStore.loader_eq_ok.mp hload
  cases hblob : store[t.blobKey key]? with
  | none =>
    rw [hblob] at hread
    cases hread
    exact t.inBucket_empty key
  | some blob =>
    rw [hblob] at hread
    obtain ⟨content', hdecode, hplace⟩ := h _ blob hblob
    cases hdecode.symm.trans (Except.mapError_eq_ok.mp hread)
    exact hplace

end BucketedTable

/-- Everything but a change of the store past the front: it may be drained without
being committed, and reopened with the same configuration. -/
def TableOp.CommitsOnly (config : BucketedTable.Config) : TableOp → Prop
  | .reopen config' => config' = config
  | .store (.insert ..) => False
  | _ => True

namespace TableSession

variable {table : BucketedTable} {config : BucketedTable.Config} {s : TableSession}
  {outage : Outage}

/-- Every change is staged for the bucket of its key, and all that is cached or stored
has its place. -/
structure Sharded (table : BucketedTable) (s : TableSession) : Prop where
  router : s.front.router = table.router
  encoding : s.front.encoding = table.encoding
  front : s.front.overlay.Sound table.Routes table.InBucket
  store : table.WellPlaced s.store

/-- All blobs that are handed out have their place, and no key twice. -/
def Placed (table : BucketedTable) (entry : TableOp × Except Fault Answer) : Prop :=
  ∀ blobs, entry.2 = .ok (.blobs blobs) → ∀ bucket blob, (bucket, blob) ∈ blobs →
    table.Places bucket blob ∧ RecordStream.KeysOnce table.encoding blob

theorem sharded_of_ofConfig (h : BucketedTable.ofConfig config = .ok table) {store : BlobStore}
    (hstore : table.WellPlaced store) : Sharded table ⟨table, store⟩ := by
  obtain ⟨router, -, rfl⟩ := Except.map_eq_ok.mp h
  exact ⟨rfl, rfl, .empty, hstore⟩

namespace Sharded

theorem blobKey_eq (h : Sharded table s) (key : Bytes) : s.front.blobKey key = table.blobKey key :=
  congrArg (Router.blobKey · key) h.router

theorem reads (h : Sharded table s) (outage : Outage) (key : Bytes) :
    (Table.blobKind s.front.encoding).Reads (s.store.loader outage) table.InBucket
      (table.blobKey key) := by
  rw [h.encoding]
  exact h.store.reads outage key

theorem stage (h : Sharded table s) (key : Bytes) (c : Change) :
    Sharded table { s with front := s.front.stage key c } :=
  ⟨h.router, h.encoding, h.front.stage (h.blobKey_eq key).symm, h.store⟩

theorem get (h : Sharded table s) (outage : Outage) (key : Bytes) :
    Sharded table { s with front := (s.front.get (s.store.loader outage) key).2 } := by
  rcases BucketedTable.get_snd (s.store.loader outage) s.front key with hs | hs
  · rwa [hs]
  · rw [hs]
    refine ⟨h.router, h.encoding, h.front.fetch ?_, h.store⟩
    rw [h.blobKey_eq]
    exact h.reads outage key

/-- A merged bucket has the keys that it had, and those of its changes. -/
theorem drain (h : Sharded table s) {blobs : List (BlobKey × Bytes)}
    {o : Overlay Bytes Change Table}
    (hd : s.front.overlay.drain (Table.blobKind s.front.encoding) (s.store.loader outage) =
      (.ok blobs, o)) :
    Sharded table { s with front := { s.front with overlay := o } } ∧
      ∀ bucket blob, (bucket, blob) ∈ blobs →
        table.Places bucket blob ∧ RecordStream.KeysOnce table.encoding blob := by
  -- Only buckets of staged keys are loaded, so a missing one has its place as well.
  have hload : ∀ {bucket key c}, table.Routes bucket key c →
      (Table.blobKind s.front.encoding).Reads (s.store.loader outage) table.InBucket bucket := by
    rintro bucket key c rfl
    exact h.reads outage key
  have hsound := h.front.drain (table.keeps_inBucket s.front.encoding) hload
  rw [hd] at hsound
  refine ⟨⟨h.router, h.encoding, hsound, h.store⟩, fun bucket blob hmem => ?_⟩
  obtain ⟨changes, base, content, -, -, hmerge, hcache⟩ :=
    Overlay.exists_merge_of_mem_drain hd hmem
  obtain ⟨-, hencode⟩ := Table.merge_eq_ok.mp hmerge
  rw [h.encoding] at hencode
  exact ⟨⟨content, (Table.heldBy_of_encode hencode).decode, hsound.cached bucket content hcache⟩,
    Table.keysOnce_of_encode hencode⟩

theorem commit (h : Sharded table s) {blobs : List (BlobKey × Bytes)}
    (hblobs : ∀ bucket blob, (bucket, blob) ∈ blobs → table.Places bucket blob) :
    Sharded table { s with store := s.store.apply blobs } := by
  refine ⟨h.router, h.encoding, h.front, fun bucket blob hstored => ?_⟩
  rcases BlobStore.getElem?_apply hstored with hold | hnew
  · exact h.store bucket blob hold
  · exact hblobs bucket blob hnew

theorem step (hopen : BucketedTable.ofConfig config = .ok table) (outage : Outage) (op : TableOp)
    (s : TableSession) (hop : op.CommitsOnly config) (h : Sharded table s) :
    Sharded table (s.step outage op).2 ∧ Placed table (op, (s.step outage op).1) := by
  cases op with
  | put key value => exact ⟨h.stage key (.put value), fun _ heq => nomatch heq⟩
  | erase key => exact ⟨h.stage key .erase, fun _ heq => nomatch heq⟩
  | get key =>
    refine ⟨h.get outage key, fun blobs heq => ?_⟩
    obtain ⟨value, -, heq⟩ := Except.map_eq_ok.mp heq
    cases heq
  | blobKey key => exact ⟨h, fun _ heq => nomatch heq⟩
  | discard => exact ⟨⟨h.router, h.encoding, h.front.discard, h.store⟩, fun _ heq => nomatch heq⟩
  | clearCache =>
    exact ⟨⟨h.router, h.encoding, h.front.clearCache, h.store⟩, fun _ heq => nomatch heq⟩
  | drain =>
    unfold TableSession.step
    rcases s.front.drain_cases (s.store.loader outage) with ⟨blobs, o, hd, heq⟩ | ⟨fault, -, heq⟩
    · obtain ⟨hnext, hblobs⟩ := h.drain hd
      simp only [heq, Session.answer, Except.map]
      refine ⟨hnext, ?_⟩
      rintro _ ⟨⟩
      exact hblobs
    · simp only [heq, Session.answer, Except.map]
      refine ⟨h, ?_⟩
      rintro _ ⟨⟩
  | commit =>
    rcases s.commit_cases outage with ⟨blobs, o, hd, hstep⟩ | ⟨fault, -, hstep⟩
    · obtain ⟨hnext, hblobs⟩ := h.drain hd
      rw [hstep]
      refine ⟨hnext.commit fun bucket blob hmem => (hblobs bucket blob hmem).1, ?_⟩
      rintro _ ⟨⟩
      exact hblobs
    · rw [hstep]
      refine ⟨h, ?_⟩
      rintro _ ⟨⟩
  | reopen config' =>
    subst hop
    simp only [TableSession.step, hopen]
    refine ⟨sharded_of_ofConfig hopen h.store, ?_⟩
    rintro _ ⟨⟩
  | store op =>
    cases op with
    | insert index blob => cases hop
    | get index =>
      refine ⟨h, ?_⟩
      rintro _ ⟨⟩

end Sharded

/-- No operation takes a blob out of the store. -/
theorem mem_store_step (outage : Outage) (op : TableOp) {bucket : BlobKey}
    (h : bucket ∈ s.store) : bucket ∈ (s.step outage op).2.store := by
  cases op with
  | commit =>
    rcases s.commit_cases outage with ⟨blobs, o, -, hstep⟩ | ⟨fault, -, hstep⟩ <;> rw [hstep]
    · exact BlobStore.mem_apply h
    · exact h
  | reopen config =>
    simp only [TableSession.step, Session.reopen]
    cases BucketedTable.ofConfig config <;> exact h
  | store op =>
    cases op with
    | insert index blob => exact Std.ExtTreeMap.mem_insert.mpr (.inr h)
    | get index => exact h
  | _ => exact h

theorem mem_store_after {bucket : BlobKey} (h : bucket ∈ s.store) (history : History TableOp) :
    bucket ∈ (Session.after TableSession.step s history).store := by
  induction history generalizing s with
  | nil => exact h
  | cons head history ih => exact ih (mem_store_step head.1 head.2 h)

/-- From a well-placed store, whatever is stored, cached or handed out has its place. No
key is stored in two places, no bucket is lost, and no blob that is handed out has two
records of one key. -/
theorem well_placed_after (hopen : BucketedTable.ofConfig config = .ok table) {store : BlobStore}
    (hstore : table.WellPlaced store) (history : History TableOp)
    (hcommits : ∀ o ∈ history, o.2.CommitsOnly config) :
    let s := Session.after step ⟨table, store⟩ history
    table.WellPlaced s.store ∧
      (∀ (bucket : BlobKey) content, s.front.overlay.cache[bucket]? = some content →
        table.InBucket bucket content) ∧
      (∀ op blobs, (op, .ok (.blobs blobs)) ∈ Session.trace step ⟨table, store⟩ history →
        ∀ bucket blob, (bucket, blob) ∈ blobs →
          table.Places bucket blob ∧ RecordStream.KeysOnce table.encoding blob) ∧
      (∀ key bucket bucket', table.StoredIn s.store key bucket →
        table.StoredIn s.store key bucket' → bucket = bucket') ∧
      ∀ earlier later, history = earlier ++ later →
        ∀ bucket ∈ (Session.after step ⟨table, store⟩ earlier).store, bucket ∈ s.store := by
  intro s
  obtain ⟨hsharded, htrace⟩ := Session.invariant_after (Sharded.step hopen)
    (sharded_of_ofConfig hopen hstore) history hcommits
  refine ⟨hsharded.store, hsharded.front.cached, ?_, ?_, ?_⟩
  · intro op blobs hentry
    exact htrace (op, .ok (.blobs blobs)) hentry blobs rfl
  · intro key bucket bucket' h h'
    rw [hsharded.store.eq_blobKey h, hsharded.store.eq_blobKey h']
  · rintro earlier later rfl bucket hmem
    simp only [s, Session.after_append]
    exact mem_store_after hmem later

/-- One key is drained and never committed with that value, the store is out during a
commit, and the only key of a bucket is erased. -/
theorem well_placed_after_erased_key :
    let config : BucketedTable.Config := ⟨4, .fixed⟩
    let table : BucketedTable := ⟨⟨4, by decide⟩, .fixed, .empty⟩
    let stored : Bytes := [1, 0, 0, 0, 0, 0, 0, 0, 1, 0, 0, 0, 1, 1, 0, 0, 0, 7]
    let store := BlobStore.apply ∅ [(.pack 2, stored)]
    let available : Outage := fun _ => none
    let history : History TableOp :=
      [(available, .put [2] [9]), (available, .drain), (available, .erase [1]),
        (available, .put [2] [8]), (fun _ => some "out", .commit), (available, .commit),
        (available, .reopen config), (available, .get [2])]
    let s := Session.after step ⟨table, store⟩ history
    (BucketedTable.ofConfig config = .ok table ∧ table.WellPlaced store ∧
        ∀ o ∈ history, o.2.CommitsOnly config) ∧
      table.WellPlaced s.store ∧ BlobKey.pack 2 ∈ s.store ∧
      table.Places (.pack 3) [1, 0, 0, 0, 0, 0, 0, 0, 1, 0, 0, 0, 2, 1, 0, 0, 0, 9] := by
  intro config table stored store available history s
  have hopen : BucketedTable.ofConfig config = .ok table := rfl
  have hstore : table.WellPlaced store := by
    intro bucket blob hblob
    rcases BlobStore.getElem?_apply hblob with hold | hnew
    · simp at hold
    · cases List.mem_singleton.mp hnew
      have hread : ((Cursor.ofBytes stored).read (.message .fixed)).1 = .ok [⟨[1], [7]⟩] := by
        decide +kernel
      refine ⟨Table.ofRecords [⟨[1], [7]⟩], ?_, ⟨2, by decide, rfl⟩, ?_⟩
      · rw [Table.decode_eq, hread]
        rfl
      · intro key hkey
        obtain rfl : [1] = key := by
          simpa [Table.ofRecords, Table.insertRecord] using hkey
        decide +kernel
  have hcommits : ∀ o ∈ history, o.2.CommitsOnly config := by
    simp [history, TableOp.CommitsOnly]
  obtain ⟨hplaced, -, hdrained, -, hkept⟩ := well_placed_after hopen hstore history hcommits
  refine ⟨⟨hopen, hstore, hcommits⟩, hplaced, ?_, ?_⟩
  · exact hkept [] history rfl _ (by decide +kernel)
  · have hentry : (TableOp.drain, Except.ok (Answer.blobs
        [(.pack 3, [1, 0, 0, 0, 0, 0, 0, 0, 1, 0, 0, 0, 2, 1, 0, 0, 0, 9])])) ∈
        Session.trace step ⟨table, store⟩ history := by decide +kernel
    exact (hdrained _ _ hentry _ _ List.mem_cons_self).1

end TableSession

end ShardedRecords
