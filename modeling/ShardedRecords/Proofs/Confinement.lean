import ShardedRecords.Proofs.BucketedTable.Confinement
import ShardedRecords.Proofs.PagedArray.Confinement

/-!
# Reads from the store are confined

What a table or an array does depends on the store for the blobs that it needs and has not
cached, and on nothing else in it. A blob once cached is not asked for again. A table may write
the records of a bucket in any order, and in another one the next time: what it hands out is
then the same up to that order.
-/
namespace ShardedRecords

/-- Two stores that answer alike for the blobs that are staged and not cached are drained alike,
and two that answer alike for one blob are read alike there; for what is at hand they need not
even do that. So with everything at hand all operations are the same whatever the store
holds, is changed to or fails at, and what is cached stays cached until it is dropped. Drains of
a table are the same, state included, if their records are written in the same order, and the
same up to the order if they are not. -/
theorem store_reads_confined :
    (∀ (t : BucketedTable) (load load' : Loader),
      ((∀ bucket ∈ t.overlay.staged, bucket ∉ t.overlay.cache → load bucket = load' bucket) →
        ∀ order order', t.drainIn order load = t.drainIn order load' ∧
          Except.Related (t.FailsAlike order order' load') t.encoding.SameBlobs
            (t.drainIn order load).1 (t.drainIn order' load').1 ∧
          (t.drainIn order load).2 = (t.drainIn order' load').2) ∧
      ∀ key, t.overlay.AtHand (t.blobKey key) key ∨
          load (t.blobKey key) = load' (t.blobKey key) →
        t.get load key = t.get load' key) ∧
    (Session.StoreFree TableSession.stepIn (fun o => o.op.onFront) (fun t o => t.Serves o.op)
        TableSession.SameOp TableSession.ServedAlike ∧
      ∀ (s : TableSession) (history : History TableSession.OrderedOp),
        (∀ o ∈ history, ¬o.2.op.Forgets) →
        ∀ bucket ∈ s.front.overlay.cache,
          bucket ∈ (s.after TableSession.stepIn history).front.overlay.cache) ∧
    (∀ (a : PagedArray) (load load' : Loader),
      ((∀ page ∈ a.overlay.staged, page ∉ a.overlay.cache → load page = load' page) →
        a.drain load = a.drain load') ∧
      ∀ index, a.overlay.AtHand (a.locate index).1 (a.locate index).2 ∨
          load (a.locate index).1 = load' (a.locate index).1 →
        a.get load index = a.get load' index) ∧
    Session.StoreFree ArraySession.step ArrayOp.onFront PagedArray.Serves Eq Eq ∧
      ∀ (s : ArraySession) (history : History ArrayOp), (∀ o ∈ history, ¬o.2.Forgets) →
        ∀ page ∈ s.front.overlay.cache,
          page ∈ (s.after ArraySession.step history).front.overlay.cache := by
  constructor
  · intro t load load'
    refine ⟨fun h order order' => ?_, fun key => BucketedTable.get_congr⟩
    have hsame := BucketedTable.drainIn_congr order h
    obtain ⟨hanswer, hstate⟩ := t.related_drainIn order order' load'
    rw [hsame]
    exact ⟨rfl, hanswer, hstate⟩
  constructor
  · constructor
    · exact TableSession.servedByFront.storeFree
    · intro s history hhistory bucket hbucket
      exact TableSession.mem_cache_after hhistory hbucket
  constructor
  · intro a load load'
    exact ⟨PagedArray.drain_congr, fun index => PagedArray.get_congr⟩
  constructor
  · exact ArraySession.servedByFront.storeFree
  · intro s history hhistory page hpage
    exact ArraySession.mem_cache_after hhistory hpage

/-- A table and an array, each with one blob cached. The store fails for all blobs but one that
is staged besides. Then the store is broken and out while the cached blob is written, committed
and read. The table writes its records in descending order where the store is out, which gives
other blobs, of the same records. -/
theorem store_reads_confined_outage :
    let available : Outage := fun _ => none
    let out : Outage := fun _ => some "out"
    (let ascending : BlobKey → RecordOrder := fun _ => .ascending
      let descending : BlobKey → RecordOrder :=
        fun _ => ⟨fun t => t.toList.reverse, fun t => t.toList.reverse_perm⟩
      let empty : Loader := fun _ => .ok none
      let flaky : Loader := fun bucket => if bucket = .pack 3 then .ok none else .error "out"
      let warm := ((⟨⟨4, by decide⟩, .fixed, .empty⟩ : BucketedTable).get empty [1]).2
      let t := (warm.put [2] [9]).put [6] [8]
      let blobs : List (BlobKey × Bytes) :=
        [(.pack 3, [2, 0, 0, 0, 0, 0, 0, 0, 1, 0, 0, 0, 2, 1, 0, 0, 0, 9,
          1, 0, 0, 0, 6, 1, 0, 0, 0, 8])]
      let blobs' : List (BlobKey × Bytes) :=
        [(.pack 3, [2, 0, 0, 0, 0, 0, 0, 0, 1, 0, 0, 0, 6, 1, 0, 0, 0, 8,
          1, 0, 0, 0, 2, 1, 0, 0, 0, 9])]
      let history : History TableSession.OrderedOp :=
        [(available, ⟨.put [1] [7], ascending⟩), (available, ⟨.put [5] [8], ascending⟩),
          (available, ⟨.commit, ascending⟩), (available, ⟨.get [1], ascending⟩)]
      let history' : History TableSession.OrderedOp :=
        [(out, ⟨.put [1] [7], descending⟩), (out, ⟨.put [5] [8], descending⟩),
          (available, ⟨.store (.insert 2 [0]), descending⟩), (out, ⟨.commit, descending⟩),
          (out, ⟨.get [1], descending⟩)]
      let onFront : TableSession.OrderedOp → Bool := fun o => o.op.onFront
      let s : TableSession := ⟨warm, ∅⟩
      let s' : TableSession := ⟨warm, BlobStore.ofIndexed [(0, [0])]⟩
      ((∀ bucket ∈ t.overlay.staged, bucket ∉ t.overlay.cache → empty bucket = flaky bucket) ∧
          t.overlay.AtHand (t.blobKey [1]) [1] ∧
          s.ServesAll TableSession.stepIn (fun t o => t.Serves o.op) history ∧
          ∀ o ∈ history', ¬o.2.op.Forgets) ∧
        (t.drainIn ascending flaky).1 = .ok blobs ∧
        (t.drainIn descending flaky).1 = .ok blobs' ∧
        t.encoding.SameBlobs blobs blobs' ∧
        (t.get flaky [1]).1 = .ok none ∧
        List.Forall₂ TableSession.ServedAlike (s.frontTrace TableSession.stepIn onFront history)
          (s'.frontTrace TableSession.stepIn onFront history') ∧
        (s'.frontTrace TableSession.stepIn onFront history').map Session.Served.answer =
          [.ok .done, .ok .done,
            .ok (.blobs [(.pack 2, [2, 0, 0, 0, 0, 0, 0, 0, 1, 0, 0, 0, 5, 1, 0, 0, 0, 8,
              1, 0, 0, 0, 1, 1, 0, 0, 0, 7])]),
            .ok (.value (some [7]))] ∧
        .pack 2 ∈ (s'.after TableSession.stepIn history').front.overlay.cache) ∧
    let long : Loader := fun _ => .ok (some [1, 2, 3, 4, 5])
    let flaky : Loader := fun page =>
      if page = .pack 1 then .ok (some [1, 2, 3, 4, 5]) else .error "out"
    let warm := ((⟨2, 2, .empty⟩ : PagedArray).get long 0).2
    let a := (warm.set 3 [8, 8]).2
    let history : History ArrayOp :=
      [(available, .set 1 [7, 7]), (available, .commit), (available, .get 1)]
    let history' : History ArrayOp :=
      [(out, .set 1 [7, 7]), (available, .store (.insert 0 [])), (out, .commit), (out, .get 1)]
    let s : ArraySession := ⟨warm, ∅⟩
    let s' : ArraySession := ⟨warm, BlobStore.ofIndexed [(0, [0])]⟩
    ((∀ page ∈ a.overlay.staged, page ∉ a.overlay.cache → long page = flaky page) ∧
        a.overlay.AtHand (a.locate 1).1 (a.locate 1).2 ∧
        s.ServesAll ArraySession.step PagedArray.Serves history ∧
        ∀ o ∈ history', ¬o.2.Forgets) ∧
      (a.drain flaky).1 = .ok [(.pack 1, [1, 2, 8, 8, 5])] ∧
      (a.get flaky 1).1 = .ok (some [3, 4]) ∧
      (s'.frontTrace ArraySession.step ArrayOp.onFront history').map Session.Served.answer =
        [.ok .done, .ok (.blobs [(.pack 0, [1, 2, 7, 7, 5])]), .ok (.value (some [7, 7]))] ∧
      .pack 0 ∈ (s'.after ArraySession.step history').front.overlay.cache := by
  intro available out
  obtain ⟨htable, ⟨htableFree, htableCached⟩, harray, harrayFree, harrayCached⟩ :=
    store_reads_confined
  constructor
  · intro ascending descending empty flaky warm t blobs blobs' history history' onFront s s'
    have hstaged : ∀ bucket ∈ t.overlay.staged, bucket ∉ t.overlay.cache →
        empty bucket = flaky bucket := by
      have hkeys : t.overlay.staged.keys = [.pack 3] := by decide +kernel
      intro bucket hbucket _
      rw [← Std.ExtTreeMap.mem_keys, hkeys, List.mem_singleton] at hbucket
      simp [empty, flaky, hbucket]
    have hcached : BlobKey.pack 2 ∈ warm.overlay.cache := by decide +kernel
    have hroute : t.blobKey [1] = .pack 2 := by decide +kernel
    have hatHand : t.overlay.AtHand (t.blobKey [1]) [1] := by
      rw [hroute]
      exact .inr hcached
    have hcommit : ((warm.put [1] [7]).put [5] [8]).overlay.StagedCached := by
      have hkeys : ((warm.put [1] [7]).put [5] [8]).overlay.staged.keys = [.pack 2] := by
        decide +kernel
      intro bucket hbucket
      rw [← Std.ExtTreeMap.mem_keys, hkeys, List.mem_singleton] at hbucket
      exact hbucket ▸ hcached
    have hserves : s.ServesAll TableSession.stepIn (fun t o => t.Serves o.op) history := by
      refine ⟨trivial, trivial, hcommit, .inr ?_, trivial⟩
      decide +kernel
    have hkeeps : ∀ o ∈ history', ¬o.2.op.Forgets := by
      simp [history', TableOp.Forgets]
    obtain ⟨hdrain, hget⟩ := htable t empty flaky
    obtain ⟨hsame, hrelated, -⟩ := hdrain hstaged ascending descending
    have hempty : (t.drainIn ascending empty).1 = .ok blobs := by decide +kernel
    have hflaky : (t.drainIn descending flaky).1 = .ok blobs' := by decide +kernel
    have hblobs : t.encoding.SameBlobs blobs blobs' := by
      rw [hempty, hflaky] at hrelated
      cases hrelated with
      | ok h => exact h
    obtain ⟨htrace, -⟩ := htableFree s s' history history' rfl hserves
      (.cons rfl (.cons rfl (.cons rfl (.cons rfl .nil))))
    refine ⟨⟨hstaged, hatHand, hserves, hkeeps⟩, hsame ▸ hempty, hflaky, hblobs, ?_, htrace, ?_,
      htableCached s' history' hkeeps _ hcached⟩
    · rw [← hget [1] (.inl hatHand)]
      decide +kernel
    · decide +kernel
  · intro long flaky warm a history history' s s'
    have hstaged : ∀ page ∈ a.overlay.staged, page ∉ a.overlay.cache →
        long page = flaky page := by
      have hkeys : a.overlay.staged.keys = [.pack 1] := by decide +kernel
      intro page hpage _
      rw [← Std.ExtTreeMap.mem_keys, hkeys, List.mem_singleton] at hpage
      simp [long, flaky, hpage]
    have hcached : BlobKey.pack 0 ∈ warm.overlay.cache := by decide +kernel
    have hatHand : a.overlay.AtHand (a.locate 1).1 (a.locate 1).2 := by
      refine .inr ?_
      decide +kernel
    have hcommit :
        (ArraySession.step available s (.set 1 [7, 7])).2.front.overlay.StagedCached := by
      have hkeys : (ArraySession.step available s (.set 1 [7, 7])).2.front.overlay.staged.keys =
          [.pack 0] := by decide +kernel
      intro page hpage
      rw [← Std.ExtTreeMap.mem_keys, hkeys, List.mem_singleton] at hpage
      exact hpage ▸ hcached
    have hserves : s.ServesAll ArraySession.step PagedArray.Serves history := by
      refine ⟨trivial, hcommit, .inr ?_, trivial⟩
      decide +kernel
    have hkeeps : ∀ o ∈ history', ¬o.2.Forgets := by
      simp [history', ArrayOp.Forgets]
    obtain ⟨hdrain, hget⟩ := harray a long flaky
    obtain ⟨htrace, -⟩ := harrayFree s s' history history' rfl hserves
      (.cons rfl (.cons rfl (.cons rfl .nil)))
    have hsame : s.frontTrace ArraySession.step ArrayOp.onFront history =
        s'.frontTrace ArraySession.step ArrayOp.onFront history' := by
      rwa [← List.forall₂_eq_eq_eq]
    refine ⟨⟨hstaged, hatHand, hserves, hkeeps⟩, ?_, ?_, ?_, ?_⟩
    · rw [← hdrain hstaged]
      decide +kernel
    · rw [← hget 1 (.inl hatHand)]
      decide +kernel
    · rw [← hsame]
      decide +kernel
    · exact harrayCached s' history' hkeeps _ hcached

end ShardedRecords
