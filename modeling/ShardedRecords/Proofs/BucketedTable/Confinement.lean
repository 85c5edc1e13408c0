import ShardedRecords.Proofs.BucketedTable.RecordOrders
import ShardedRecords.Proofs.Session.Offline
import ShardedRecords.Session.TableSession

/-!
# Which buckets a table reads

A drain loads the buckets with staged changes that are not cached, and a read loads the bucket
of its key, unless a change of the key is staged or the bucket is cached. In whatever order
records are written, nothing more can be told of the store.
-/
namespace ShardedRecords

namespace BucketedTable

variable {load load' : Loader} {t : BucketedTable} {key : Bytes}

theorem drainIn_congr (order : BlobKey → RecordOrder)
    (h : ∀ bucket ∈ t.overlay.staged, bucket ∉ t.overlay.cache → load bucket = load' bucket) :
    t.drainIn order load = t.drainIn order load' := by
  unfold drainIn
  rw [Overlay.drain_congr h]

theorem drainIn_eq_of_stagedCached (h : t.overlay.StagedCached) (order : BlobKey → RecordOrder)
    (load load' : Loader) : t.drainIn order load = t.drainIn order load' := by
  unfold drainIn
  rw [h.drain_eq]

theorem get_congr (h : t.overlay.AtHand (t.blobKey key) key ∨
    load (t.blobKey key) = load' (t.blobKey key)) : t.get load key = t.get load' key := by
  unfold get
  cases hchange : t.overlay.change? (t.blobKey key) key with
  | some c => rfl
  | none => simp only [Overlay.fetch_congr hchange h]

/-- The operation needs nothing from the store. -/
def Serves (t : BucketedTable) : TableOp → Prop
  | .get key => t.overlay.AtHand (t.blobKey key) key
  | .drain => t.overlay.StagedCached
  | .commit => t.overlay.StagedCached
  | _ => True

theorem mem_cache_get (load : Loader) (key : Bytes) {bucket : BlobKey}
    (h : bucket ∈ t.overlay.cache) : bucket ∈ (t.get load key).2.overlay.cache := by
  rcases t.get_snd load key with heq | heq <;> rw [heq]
  · exact h
  · exact Overlay.mem_cache_fetch _ load _ h

end BucketedTable

def TableOp.onFront : TableOp → Bool
  | .store _ => false
  | _ => true

/-- After the operation nothing may be cached. -/
def TableOp.Forgets : TableOp → Prop
  | .clearCache => True
  | .reopen _ => True
  | _ => False

/-- The operation writes records. -/
def TableOp.Writes : TableOp → Prop
  | .drain => True
  | .commit => True
  | _ => False

/-- Answers that differ in the order of records at most. -/
inductive Answer.SameRecords (e : Encoding) : Answer → Answer → Prop
  | refl (a : Answer) : SameRecords e a a
  | blobs {bs bs' : List (BlobKey × Bytes)} (h : e.SameBlobs bs bs') :
      SameRecords e (.blobs bs) (.blobs bs')

namespace TableSession

/-- Operations that differ in the order of records at most. -/
def SameOp (o o' : OrderedOp) : Prop := o.op = o'.op

/-- The same operation met the same table twice. It was answered the same, or if it wrote records
in another order, the same up to the order, whatever a loader would have given. -/
structure ServedAlike (a a' : Session.Served BucketedTable OrderedOp) : Prop where
  front : a.front = a'.front
  op : SameOp a.op a'.op
  same : (a.op.op.Writes → a.op.order = a'.op.order) → a.answer = a'.answer
  alike (load : Loader) : Except.Related (a.front.FailsAlike a.op.order a'.op.order load)
    (Answer.SameRecords a.front.encoding) a.answer a'.answer

variable {t : BucketedTable} {op : TableOp} {order order' : BlobKey → RecordOrder}

theorem ServedAlike.refl (x : Except Fault Answer) :
    ServedAlike ⟨t, ⟨op, order⟩, x⟩ ⟨t, ⟨op, order'⟩, x⟩ where
  front := rfl
  op := rfl
  same _ := rfl
  alike _ := .refl .same .refl x

theorem ServedAlike.of_drained (hop : op.Writes) (h : t.overlay.StagedCached)
    (load load' : Loader) :
    ServedAlike ⟨t, ⟨op, order⟩, (t.drainIn order load).1.map .blobs⟩
      ⟨t, ⟨op, order'⟩, (t.drainIn order' load').1.map .blobs⟩ where
  front := rfl
  op := rfl
  same horder := by
    cases horder hop
    rw [BucketedTable.drainIn_eq_of_stagedCached h order load load']
  alike other := by
    rw [BucketedTable.drainIn_eq_of_stagedCached h order load other,
      BucketedTable.drainIn_eq_of_stagedCached h order' load' other]
    exact (t.related_drainIn order order' other).1.map fun _ _ => .blobs

theorem servedByFront : Session.ServedByFront stepIn (fun o => o.op.onFront)
    (fun t o => t.Serves o.op) SameOp ServedAlike := by
  constructor
  · rintro outage s ⟨op, order⟩ hop
    cases op with
    | store op => rfl
    | _ => cases hop
  · rintro outage outage' ⟨table, store⟩ ⟨-, store'⟩ ⟨op, order⟩ ⟨_, order'⟩ hop rfl rfl hserves
    have hfront (hcached : table.overlay.StagedCached) :
        (table.drainIn order (store.loader outage)).2 =
          (table.drainIn order' (store'.loader outage')).2 := by
      rw [BucketedTable.drainIn_eq_of_stagedCached hcached order _ (store'.loader outage')]
      exact (table.related_drainIn order order' _).2
    cases op with
    | get key =>
      have hget : table.get (store.loader outage) key = table.get (store'.loader outage') key :=
        BucketedTable.get_congr (.inl hserves)
      simp only [stepIn, step, hget]
      exact ⟨.refl _, rfl⟩
    | drain =>
      refine ⟨.of_drained ?_ hserves _ _, hfront hserves⟩
      trivial
    | commit =>
      simp only [stepIn, Session.commit_fst, Session.front_commit]
      refine ⟨.of_drained ?_ hserves _ _, hfront hserves⟩
      trivial
    | reopen config =>
      simp only [stepIn, step, Session.reopen]
      split <;> exact ⟨.refl _, rfl⟩
    | store op => cases hop
    | _ => exact ⟨.refl _, rfl⟩

theorem mem_cache_stepIn {outage : Outage} {s : TableSession} {o : OrderedOp} {bucket : BlobKey}
    (hop : ¬o.op.Forgets) (h : bucket ∈ s.front.overlay.cache) :
    bucket ∈ (s.stepIn outage o).2.front.overlay.cache := by
  obtain ⟨op, order⟩ := o
  cases op with
  | get key => exact BucketedTable.mem_cache_get _ key h
  | drain => exact Overlay.mem_cache_drain _ _ h
  | commit =>
    simp only [stepIn, Session.front_commit]
    exact Overlay.mem_cache_drain _ _ h
  | clearCache => exact absurd trivial hop
  | reopen config => exact absurd trivial hop
  | _ => exact h

/-- A history that forgets nothing leaves every cached bucket cached. -/
theorem mem_cache_after {s : TableSession} {history : History OrderedOp} {bucket : BlobKey}
    (hhistory : ∀ o ∈ history, ¬o.2.op.Forgets) (h : bucket ∈ s.front.overlay.cache) :
    bucket ∈ (s.after stepIn history).front.overlay.cache := by
  have hstep : ∀ outage (o : OrderedOp) (s : TableSession), ¬o.op.Forgets →
      bucket ∈ s.front.overlay.cache → bucket ∈ (s.stepIn outage o).2.front.overlay.cache :=
    fun outage o s hop hs => mem_cache_stepIn hop hs
  exact Session.holds_after hstep h history hhistory

end TableSession

end ShardedRecords
