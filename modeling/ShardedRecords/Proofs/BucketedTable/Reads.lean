import ShardedRecords.Proofs.BucketedTable.FlatTable

/-!
# Reads and evictions leave no trace

Two sessions with the same store and the same staged changes answer alike, whatever
each of them has cached. So a read or an eviction, which changes nothing but the cache,
can be put in or left out anywhere: no other operation is answered in another way, and
the store ends up the same.
-/
namespace ShardedRecords

/-- The operations that change nothing but the cache. -/
def TableOp.ReadsOrEvicts : TableOp → Prop
  | .get _ => True
  | .clearCache => True
  | _ => False

namespace TableSession

variable {table : BucketedTable} {config : BucketedTable.Config} {s s' : TableSession}
  {outage : Outage} {op : TableOp}

/-- Two sessions that differ in their caches at most. -/
structure Alike (table : BucketedTable) (s s' : TableSession) : Prop where
  left : Consistent table s
  right : Consistent table s'
  store : s.store = s'.store
  staged : s.front.overlay.staged = s'.front.overlay.staged

theorem Alike.change?_eq (h : Alike table s s') (key : BlobKey) (place : Bytes) :
    s.front.overlay.change? key place = s'.front.overlay.change? key place := by
  unfold Overlay.change?
  rw [h.staged]

theorem Alike.blobKey_eq (h : Alike table s s') (key : Bytes) :
    s.front.blobKey key = s'.front.blobKey key := by
  rw [h.left.blobKey_eq, h.right.blobKey_eq]

theorem Alike.encoding_eq (h : Alike table s s') : s.front.encoding = s'.front.encoding := by
  rw [h.left.encoding, h.right.encoding]

theorem Alike.get_eq (h : Alike table s s') (hout : ∀ key, outage key = none) (key : Bytes) :
    (s.front.get (s.store.loader outage) key).1 =
      (s'.front.get (s'.store.loader outage) key).1 := by
  rw [BucketedTable.get_fst, BucketedTable.get_fst, h.left.coherent.base_eq_read (hout _),
    h.right.coherent.base_eq_read (hout _), h.blobKey_eq, h.change?_eq, h.store, h.encoding_eq]

theorem staged_get (t : BucketedTable) (load : Loader) (key : Bytes) :
    (t.get load key).2.overlay.staged = t.overlay.staged := by
  rcases BucketedTable.get_snd load t key with h | h <;> rw [h]
  exact Overlay.staged_fetch ..

theorem Alike.stage (h : Alike table s s') (key : Bytes) (c : Change) :
    (s.front.stage key c).overlay.staged = (s'.front.stage key c).overlay.staged := by
  simp only [BucketedTable.stage, Overlay.stage, h.staged, h.blobKey_eq]

theorem Alike.commit (h : Alike table s s') (hout : ∀ key, outage key = none) :
    (s.step outage .commit).1 = (s'.step outage .commit).1 ∧
      (s.step outage .commit).2.store = (s'.step outage .commit).2.store ∧
      (s.step outage .commit).2.front.overlay.staged =
        (s'.step outage .commit).2.front.overlay.staged := by
  have hencoding := h.encoding_eq
  have hright := h.right.coherent
  rw [← h.store, ← hencoding] at hright
  obtain ⟨hblobs, hstaged⟩ := h.left.coherent.drain_eq hright h.staged hout
  simp only [TableSession.step, BucketedTable.drain_eq, Session.commit, ← hencoding, ← h.store]
  rw [hblobs]
  cases (s'.front.overlay.drain (Table.blobKind s.front.encoding) (s.store.loader outage)).1 with
  | ok blobs => exact ⟨rfl, rfl, hstaged⟩
  | error fault => exact ⟨rfl, rfl, hstaged⟩

/-- Alike sessions answer alike, and stay alike. -/
theorem Alike.step (hopen : BucketedTable.ofConfig config = .ok table) (h : Alike table s s')
    (hop : op.Regular config) (hout : ∀ key, outage key = none) :
    (s.step outage op).1 = (s'.step outage op).1 ∧
      Alike table (s.step outage op).2 (s'.step outage op).2 := by
  have hleft := (h.left.step hopen outage op s hop).1
  have hright := (h.right.step hopen outage op s' hop).1
  cases op with
  | put key value => exact ⟨rfl, hleft, hright, h.store, h.stage key (.put value)⟩
  | erase key => exact ⟨rfl, hleft, hright, h.store, h.stage key .erase⟩
  | get key =>
    refine ⟨congrArg (Except.map Answer.value) (h.get_eq hout key), hleft, hright, h.store, ?_⟩
    exact (staged_get ..).trans (h.staged.trans (staged_get ..).symm)
  | blobKey key =>
    refine ⟨?_, hleft, hright, h.store, h.staged⟩
    simp only [TableSession.step, h.blobKey_eq]
  | discard => exact ⟨rfl, hleft, hright, h.store, rfl⟩
  | clearCache => exact ⟨rfl, hleft, hright, h.store, h.staged⟩
  | drain => cases hop
  | commit =>
    obtain ⟨hanswer, hstore, hstaged⟩ := h.commit hout
    exact ⟨hanswer, hleft, hright, hstore, hstaged⟩
  | reopen config' =>
    subst hop
    simp only [TableSession.step, hopen] at hleft hright ⊢
    exact ⟨rfl, hleft, hright, h.store, rfl⟩
  | store op =>
    cases op with
    | insert index blob => cases hop
    | get index =>
      refine ⟨?_, hleft, hright, h.store, h.staged⟩
      simp only [TableSession.step, Session.storeStep, BlobStore.step, h.store]

/-- A read or an eviction in one of two alike sessions leaves them alike. -/
theorem Alike.step_left (hopen : BucketedTable.ofConfig config = .ok table) (h : Alike table s s')
    (hop : op.ReadsOrEvicts) : Alike table (s.step outage op).2 s' := by
  cases op with
  | get key =>
    have hleft := (h.left.step hopen outage (.get key) s trivial).1
    exact ⟨hleft, h.right, h.store, (staged_get ..).trans h.staged⟩
  | clearCache =>
    have hleft := (h.left.step hopen outage .clearCache s trivial).1
    exact ⟨hleft, h.right, h.store, h.staged⟩
  | _ => cases hop

/-- Some operations of a history are marked, and all that are not only read or evict. What
the marked ones are answered is what they are answered alone, and the store behind the
history is the store behind them alone. -/
theorem reads_and_evictions_invisible (hopen : BucketedTable.ofConfig config = .ok table)
    (store : BlobStore) (history : History (TableOp × Bool))
    (hregular : ∀ o ∈ history, o.2.1.Regular config)
    (houtage : ∀ o ∈ history, ∀ key, o.1 key = none)
    (hmarks : ∀ o ∈ history, o.2.2 = false → o.2.1.ReadsOrEvicts) :
    let step' := fun outage s (op : TableOp × Bool) => TableSession.step outage s op.1
    let marked := history.filter fun o => o.2.2
    (Session.trace step' ⟨table, store⟩ history).filter (fun entry => entry.1.2) =
        Session.trace step' ⟨table, store⟩ marked ∧
      (Session.after step' ⟨table, store⟩ history).store =
        (Session.after step' ⟨table, store⟩ marked).store := by
  intro step' marked
  have hstart := (consistent_of_ofConfig hopen store).1
  let allowed : Outage × (TableOp × Bool) → Prop := fun o =>
    o.2.1.Regular config ∧ (∀ key, o.1 key = none) ∧ (o.2.2 = false → o.2.1.ReadsOrEvicts)
  have hkept : ∀ (outage : Outage) (op : TableOp × Bool) (s s' : TableSession),
      allowed (outage, op) → op.2 = true → Alike table s s' →
      (step' outage s op).1 = (step' outage s' op).1 ∧
        Alike table (step' outage s op).2 (step' outage s' op).2 :=
    fun _ _ _ _ ho _ h => h.step hopen ho.1 ho.2.1
  have hskipped : ∀ (outage : Outage) (op : TableOp × Bool) (s s' : TableSession),
      allowed (outage, op) → op.2 = false → Alike table s s' →
      Alike table (step' outage s op).2 s' :=
    fun _ _ _ _ ho hop h => h.step_left hopen (ho.2.2 hop)
  obtain ⟨htrace, hafter⟩ := Session.trace_filter hkept hskipped
    (⟨hstart, hstart, rfl, rfl⟩ : Alike table ⟨table, store⟩ ⟨table, store⟩) history
    fun o ho => ⟨hregular o ho, houtage o ho, hmarks o ho⟩
  exact ⟨htrace, hafter.store⟩

/-- One of four buckets is broken, which fails a read and a commit. -/
theorem reads_and_evictions_invisible_broken_bucket :
    let config : BucketedTable.Config := ⟨4, .fixed⟩
    let table : BucketedTable := ⟨⟨4, by decide⟩, .fixed, .empty⟩
    let store := BlobStore.ofIndexed [(3, [0])]
    let available : Outage := fun _ => none
    let history : History (TableOp × Bool) :=
      [(available, .get [1], false), (available, .put [1] [7], true), (available, .commit, true),
        (available, .clearCache, false), (available, .put [2] [9], true),
        (available, .get [2], false), (available, .get [4], false), (available, .commit, true),
        (available, .get [1], true)]
    let step' := fun outage s (op : TableOp × Bool) => TableSession.step outage s op.1
    (BucketedTable.ofConfig config = .ok table ∧ (∀ o ∈ history, o.2.1.Regular config) ∧
        (∀ o ∈ history, ∀ key, o.1 key = none) ∧
        ∀ o ∈ history, o.2.2 = false → o.2.1.ReadsOrEvicts) ∧
      ((Session.trace step' ⟨table, store⟩ history).filter (fun entry => entry.1.2)).map Prod.snd =
        [.ok .done,
          .ok (.blobs [(.pack 2, [1, 0, 0, 0, 0, 0, 0, 0, 1, 0, 0, 0, 1, 1, 0, 0, 0, 7])]),
          .ok .done, .error (.wire (.truncated 0 8 1)), .ok (.value (some [7]))] := by
  intro config table store available history step'
  have hopen : BucketedTable.ofConfig config = .ok table := rfl
  have hregular : ∀ o ∈ history, o.2.1.Regular config := by
    simp [history, TableOp.Regular]
  have houtage : ∀ o ∈ history, ∀ key, o.1 key = none := by
    simp [history, available]
  have hmarks : ∀ o ∈ history, o.2.2 = false → o.2.1.ReadsOrEvicts := by
    simp [history, TableOp.ReadsOrEvicts]
  obtain ⟨htrace, -⟩ := reads_and_evictions_invisible hopen store history hregular houtage hmarks
  refine ⟨⟨hopen, hregular, houtage, hmarks⟩, ?_⟩
  rw [htrace]
  decide +kernel

end TableSession

end ShardedRecords
