import ShardedRecords.Proofs.BucketedTable.Basic
import ShardedRecords.Proofs.Session.History
import ShardedRecords.Session.TableSession

/-!
# Bucketed tables as one flat table

A session on a bucketed table stands for one table with changes pending on it.
Buckets, blobs and caches cannot be told from the outside: after every history
the session stands for what the flat table has become by the operations that
succeeded, and every key that is read has the value it has there.
-/
namespace ShardedRecords

/-- A table in which what is committed under some keys cannot be read, with one
pending change at most for each key. -/
structure FlatTable where
  committed : Bytes → Except Fault (Option Bytes)
  pending : Bytes → Option Change

namespace FlatTable

/-- A pending change hides what is committed. -/
def lookup (f : FlatTable) (key : Bytes) : Except Fault (Option Bytes) :=
  match f.pending key with
  | some c => .ok c.value?
  | none => f.committed key

def change (f : FlatTable) (key : Bytes) (c : Change) : FlatTable :=
  { f with pending := fun key' => if key = key' then some c else f.pending key' }

def discard (f : FlatTable) : FlatTable := { f with pending := fun _ => none }

def commit (f : FlatTable) : FlatTable := ⟨f.lookup, fun _ => none⟩

/-- What an operation does that succeeds. Reading does nothing, and a table that is
opened again has no pending changes. -/
def step (f : FlatTable) : TableOp → FlatTable
  | .put key value => f.change key (.put value)
  | .erase key => f.change key .erase
  | .discard => f.discard
  | .reopen _ => f.discard
  | .commit => f.commit
  | _ => f

/-- An operation that fails does nothing. -/
def follow (f : FlatTable) : TableOp × Except Fault Answer → FlatTable
  | (op, .ok _) => f.step op
  | (_, .error _) => f

/-- The table in a store: under each key what the blob of its bucket holds. -/
def stored (table : BucketedTable) (store : BlobStore) : FlatTable where
  committed key := (Table.ofBlob table.encoding store[table.blobKey key]?).map (·[key]?)
  pending _ := none

end FlatTable

/-- The operations of a session that changes its store by commits alone, and opens
tables of one configuration. -/
def TableOp.Regular (config : BucketedTable.Config) : TableOp → Prop
  | .reopen config' => config' = config
  | .drain => False
  | .store (.insert ..) => False
  | _ => True

namespace TableSession

variable {table : BucketedTable} {config : BucketedTable.Config} {s : TableSession}
  {outage : Outage}

/-- What a session stands for. -/
def flat (s : TableSession) : FlatTable where
  committed := (FlatTable.stored s.front s.store).committed
  pending key := s.front.overlay.change? (s.front.blobKey key) key

/-- The session is one on a table that was opened like `table`, and what it has cached
is what the store holds. -/
structure Consistent (table : BucketedTable) (s : TableSession) : Prop where
  router : s.front.router = table.router
  encoding : s.front.encoding = table.encoding
  coherent : s.front.overlay.Coherent (Table.blobKind s.front.encoding) s.store

theorem Consistent.blobKey_eq (h : Consistent table s) (key : Bytes) :
    s.front.blobKey key = table.blobKey key :=
  congrArg (Router.blobKey · key) h.router

theorem Consistent.stored_eq (h : Consistent table s) (store : BlobStore) :
    FlatTable.stored s.front store = FlatTable.stored table store := by
  rw [FlatTable.stored, FlatTable.stored, FlatTable.mk.injEq]
  refine ⟨?_, rfl⟩
  funext key
  rw [h.blobKey_eq, h.encoding]

theorem consistent_of_ofConfig (h : BucketedTable.ofConfig config = .ok table) (store : BlobStore) :
    Consistent table ⟨table, store⟩ ∧ flat ⟨table, store⟩ = FlatTable.stored table store := by
  obtain ⟨router, -, rfl⟩ := Except.map_eq_ok.mp h
  refine ⟨⟨rfl, rfl, Overlay.coherent_empty⟩, ?_⟩
  rw [flat, FlatTable.mk.injEq]
  exact ⟨rfl, funext fun key => Overlay.change?_empty _ _⟩

theorem lookup_flat (s : TableSession) (key : Bytes) : s.flat.lookup key =
    match s.front.overlay.change? (s.front.blobKey key) key with
    | some c => .ok c.value?
    | none => (Table.ofBlob s.front.encoding s.store[s.front.blobKey key]?).map (·[key]?) := rfl

/-- A front that routes and reads alike over the same store differs at most in what
is pending. -/
theorem flat_of_front (s : TableSession) (front : BucketedTable)
    (hr : front.router = s.front.router) (he : front.encoding = s.front.encoding) :
    flat { s with front } = { s.flat with
      pending := fun key => front.overlay.change? (s.front.blobKey key) key } := by
  have hkey : front.blobKey = s.front.blobKey := by
    funext key
    rw [BucketedTable.blobKey, hr]
    rfl
  rw [flat, flat, FlatTable.mk.injEq]
  refine ⟨?_, by rw [hkey]⟩
  funext key
  simp only [FlatTable.stored, hkey, he]

/-! ## Single operations -/

theorem flat_stage (s : TableSession) (key : Bytes) (c : Change) :
    flat { s with front := s.front.stage key c } = s.flat.change key c := by
  rw [flat_of_front s (s.front.stage key c) rfl rfl, FlatTable.change, FlatTable.mk.injEq]
  refine ⟨rfl, funext fun key' => ?_⟩
  rw [BucketedTable.stage, Overlay.change?_stage]
  by_cases h : key = key'
  · subst h
    rw [if_pos ⟨rfl, rfl⟩, if_pos rfl]
  · rw [if_neg (fun hc => h hc.2), if_neg h]
    rfl

theorem flat_discard (s : TableSession) :
    flat { s with front := s.front.discard } = s.flat.discard := by
  rw [flat_of_front s s.front.discard rfl rfl, FlatTable.discard, FlatTable.mk.injEq]
  exact ⟨rfl, funext fun _ => Overlay.change?_discard _ _ _⟩

theorem flat_clearCache (s : TableSession) :
    flat { s with front := s.front.clearCache } = s.flat := by
  rw [flat_of_front s s.front.clearCache rfl rfl]
  rfl

theorem flat_get (s : TableSession) (load : Loader) (key : Bytes) :
    flat { s with front := (s.front.get load key).2 } = s.flat := by
  rcases BucketedTable.get_snd load s.front key with h | h
  · rw [h]
  · rw [flat_of_front s (s.front.get load key).2 (by rw [h]) (by rw [h]), h]
    simp only [Overlay.change?_fetch]
    rfl

theorem Consistent.get (h : Consistent table s) (outage : Outage) (key : Bytes) :
    Consistent table { s with front := (s.front.get (s.store.loader outage) key).2 } := by
  rcases BucketedTable.get_snd (s.store.loader outage) s.front key with hs | hs
  · rwa [hs]
  · rw [hs]
    exact ⟨h.router, h.encoding, h.coherent.fetch outage _⟩

theorem Consistent.lookup_of_get (h : Consistent table s) {key : Bytes} {value : Option Bytes}
    (hget : (s.front.get (s.store.loader outage) key).1 = .ok value) :
    s.flat.lookup key = .ok value := by
  rw [BucketedTable.get_fst] at hget
  rw [lookup_flat]
  cases hc : s.front.overlay.change? (s.front.blobKey key) key with
  | some c =>
    rw [hc] at hget
    exact hget
  | none =>
    rw [hc] at hget
    obtain ⟨content, hbase, rfl⟩ := Except.map_eq_ok.mp hget
    exact congrArg (Except.map _) (h.coherent.read_of_base hbase)

/-- As long as the bucket is not out, a key is answered with what it stands for, or
with the reason why that cannot be read. -/
theorem Consistent.get_eq_lookup (h : Consistent table s) {key : Bytes}
    (hout : outage (s.front.blobKey key) = none) :
    (s.front.get (s.store.loader outage) key).1 = s.flat.lookup key := by
  rw [BucketedTable.get_fst, lookup_flat, h.coherent.base_eq_read hout]
  rfl

/-! ## Commits -/

/-- A commit drains the front into the store, or fails and changes nothing. -/
theorem commit_cases (s : TableSession) (outage : Outage) :
    (∃ blobs o, s.front.overlay.drain (Table.blobKind s.front.encoding) (s.store.loader outage) =
        (.ok blobs, o) ∧ s.step outage .commit =
        (.ok (.blobs blobs), ⟨{ s.front with overlay := o }, s.store.apply blobs⟩)) ∨
    ∃ fault, (s.front.overlay.drain (Table.blobKind s.front.encoding)
        (s.store.loader outage)).1 = .error fault ∧ s.step outage .commit = (.error fault, s) := by
  unfold TableSession.step
  rcases s.front.drain_cases (s.store.loader outage) with ⟨blobs, o, hd, heq⟩ | ⟨fault, hd, heq⟩
  · exact .inl ⟨blobs, o, hd, by rw [heq]; rfl⟩
  · exact .inr ⟨fault, congrArg Prod.fst hd, by rw [heq]; rfl⟩

/-- A bucket is committed as a whole. The keys without changes stay what they were in
the new blob, and no other bucket is touched. -/
theorem Consistent.commit (h : Consistent table s) {o : Overlay Bytes Change Table}
    {store : BlobStore} (hd : Overlay.Drained (Table.blobKind s.front.encoding)
      (s.store.loader outage) s.front.overlay s.store o store) :
    Consistent table ⟨{ s.front with overlay := o }, store⟩ ∧
      flat ⟨{ s.front with overlay := o }, store⟩ = s.flat.commit := by
  have hcoherent := h.coherent.drained (Table.faithful_blobKind _) hd
  refine ⟨⟨h.router, h.encoding, hcoherent⟩, ?_⟩
  rw [flat, FlatTable.commit, FlatTable.mk.injEq]
  constructor
  · funext key
    show (Table.ofBlob s.front.encoding store[s.front.blobKey key]?).map (·[key]?) = _
    rw [lookup_flat, Overlay.change?]
    cases hs : s.front.overlay.staged[s.front.blobKey key]? with
    | none => rw [(hd.other _ hs).2]; rfl
    | some changes =>
      obtain ⟨base, content, blob, hbase, hmerge, hcache, -⟩ := hd.merged _ changes hs
      have hread : Table.ofBlob s.front.encoding store[s.front.blobKey key]? = .ok content :=
        hcoherent _ _ hcache
      have hold : Table.ofBlob s.front.encoding s.store[s.front.blobKey key]? = .ok base :=
        h.coherent.read_of_base hbase
      rw [hread, hold, (Table.merge_eq_ok.mp hmerge).1]
      refine (congrArg Except.ok (Table.getElem?_applyChanges base changes key)).trans ?_
      cases hc : changes[key]? with
      | some c => simp only [Option.bind_eq_bind, Option.bind_some, hc]
      | none => simp only [Option.bind_eq_bind, Option.bind_some, hc, Except.map]
  · funext key
    rw [Overlay.change?, hd.staged]
    rfl

/-! ## Histories -/

/-- Each operation does to what the session stands for what it does to a flat table. -/
theorem Consistent.step (hopen : BucketedTable.ofConfig config = .ok table) (outage : Outage)
    (op : TableOp) (s : TableSession) (hop : op.Regular config) (h : Consistent table s) :
    Consistent table (s.step outage op).2 ∧
      (s.step outage op).2.flat = s.flat.follow (op, (s.step outage op).1) := by
  cases op with
  | put key value =>
    exact ⟨⟨h.router, h.encoding, h.coherent.of_cache_eq rfl⟩, flat_stage s key (.put value)⟩
  | erase key =>
    exact ⟨⟨h.router, h.encoding, h.coherent.of_cache_eq rfl⟩, flat_stage s key .erase⟩
  | get key =>
    refine ⟨h.get outage key, ?_⟩
    rw [TableSession.step, Session.answer, flat_get]
    cases (s.front.get (s.store.loader outage) key).1 <;> rfl
  | blobKey key => exact ⟨h, rfl⟩
  | discard => exact ⟨⟨h.router, h.encoding, h.coherent.of_cache_eq rfl⟩, flat_discard s⟩
  | clearCache => exact ⟨⟨h.router, h.encoding, Overlay.coherent_clearCache _⟩, flat_clearCache s⟩
  | drain => cases hop
  | commit =>
    rcases s.commit_cases outage with ⟨blobs, o, hd, hstep⟩ | ⟨fault, -, hstep⟩
    · rw [hstep]
      exact h.commit (Overlay.drained_of_drain hd s.store)
    · rw [hstep]
      exact ⟨h, rfl⟩
  | reopen config' =>
    subst hop
    obtain ⟨hnew, hflat⟩ := consistent_of_ofConfig hopen s.store
    rw [TableSession.step, hopen]
    refine ⟨hnew, hflat.trans ?_⟩
    rw [← h.stored_eq]
    rfl
  | store op =>
    cases op with
    | insert index blob => cases hop
    | get index => exact ⟨h, rfl⟩

/-- After every history the session stands for what the operations that succeeded have
made of a flat table. What is read is what stands there, and it is read unless the store
is out; a fault changes nothing; and of a bucket that cannot be decoded only the pending
changes are seen. -/
theorem refines_flatTable (hopen : BucketedTable.ofConfig config = .ok table)
    (store : BlobStore) (history : History TableOp)
    (hregular : ∀ o ∈ history, o.2.Regular config) :
    let s := Session.after step ⟨table, store⟩ history
    let f := (Session.trace step ⟨table, store⟩ history).foldl FlatTable.follow
      (FlatTable.stored table store)
    flat s = f ∧
      (∀ outage key answer, (step outage s (.get key)).1 = .ok answer →
        (f.lookup key).map .value = .ok answer) ∧
      (∀ outage key, outage (table.blobKey key) = none →
        (step outage s (.get key)).1 = (f.lookup key).map .value) ∧
      (∀ outage op fault, op.Regular config → (step outage s op).1 = .error fault →
        flat (step outage s op).2 = f) ∧
      ∀ outage key fault, f.pending key = none → f.committed key = .error fault →
        ∃ fault', (step outage s (.get key)).1 = .error fault' := by
  intro s f
  have hstart := consistent_of_ofConfig hopen store
  obtain ⟨h, hflat⟩ : Consistent table s ∧ flat s = f :=
    Session.simulates_after (fun s f => Consistent table s ∧ flat s = f)
      (fun outage op s f hop hs => hs.2 ▸ hs.1.step hopen outage op s hop) hstart history hregular
  have hget : ∀ outage key answer, (step outage s (.get key)).1 = .ok answer →
      (f.lookup key).map .value = .ok answer := by
    intro outage key answer hanswer
    obtain ⟨value, hvalue, rfl⟩ := Except.map_eq_ok.mp hanswer
    rw [← hflat, h.lookup_of_get hvalue]
    rfl
  refine ⟨hflat, hget, fun outage key hout => ?_, fun outage op fault hop herror => ?_,
    fun outage key fault hpending hcommitted => ?_⟩
  · rw [← hflat, ← h.get_eq_lookup (by rwa [h.blobKey_eq])]
    rfl
  · rw [(h.step hopen outage op s hop).2, herror, hflat]
    rfl
  · cases hanswer : (step outage s (.get key)).1 with
    | error fault' => exact ⟨fault', rfl⟩
    | ok answer =>
      have := hget outage key answer hanswer
      rw [FlatTable.lookup, hpending, hcommitted] at this
      cases this

/-- One of four buckets is broken, and the store is out during the first commit. -/
theorem refines_flatTable_broken_bucket :
    let config : BucketedTable.Config := ⟨4, .fixed⟩
    let table : BucketedTable := ⟨⟨4, by decide⟩, .fixed, .empty⟩
    let store := BlobStore.ofIndexed [(3, [0])]
    let history : History TableOp :=
      [(fun _ => none, .put [1] [7]), (fun _ => some "out", .commit), (fun _ => none, .commit),
        (fun _ => none, .put [2] [9]), (fun _ => none, .commit), (fun _ => none, .reopen config)]
    let s := Session.after step ⟨table, store⟩ history
    (BucketedTable.ofConfig config = .ok table ∧ ∀ o ∈ history, o.2.Regular config) ∧
      (step (fun _ => none) s (.get [1])).1 = .ok (.value (some [7])) ∧
      ∃ fault, (step (fun _ => none) s (.get [2])).1 = .error fault := by
  intro config table store history s
  have hopen : BucketedTable.ofConfig config = .ok table := rfl
  have hregular : ∀ o ∈ history, o.2.Regular config := by
    simp [history, TableOp.Regular]
  obtain ⟨-, -, hread, -, hbroken⟩ := refines_flatTable hopen store history hregular
  refine ⟨⟨hopen, hregular⟩, ?_, ?_⟩
  · rw [hread _ _ rfl]
    decide +kernel
  · exact hbroken _ [2] (.wire (.truncated 0 8 1)) (by decide +kernel) (by decide +kernel)

end TableSession

end ShardedRecords
