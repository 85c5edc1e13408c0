import ShardedRecords.Proofs.Overlay.Batching
import ShardedRecords.Proofs.Session.History

/-!
# Commits in between

A session may commit its writes one by one or all together, and make those to different
places in any order: once everything is committed, the store tells nothing but what was
written last to each place.
-/
namespace ShardedRecords.Session

variable {φ ω ι κ δ γ : Type} [Ord κ] [Std.TransOrd κ]
variable {step : Outage → Session φ → ω → Except Fault Answer × Session φ}
variable {commitOp : ω} {write? : ω → Option (ι × δ)}
variable {kind : BlobKind κ δ γ} {locate : ι → BlobKey × κ} {overlay : φ → Overlay κ δ γ}
variable {Consistent : Session φ → Prop} {s : Session φ}

/-- Whatever writes and commits are made, if these are the last writes to each place and
nothing is out at the end, then one more commit succeeds and leaves this store. -/
def CommitsTo [Ord ι] [Std.TransOrd ι]
    (step : Outage → Session φ → ω → Except Fault Answer × Session φ) (commitOp : ω)
    (write? : ω → Option (ι × δ)) (s : Session φ) (last : Std.ExtTreeMap ι δ)
    (store : BlobStore) : Prop :=
  ∀ (history : History ω) (outage : Outage),
    (∀ o ∈ history, o.2 = commitOp ∨ ∃ w, write? o.2 = some w) →
    lastByKeyMap (writes write? history) = last → (∀ key, outage key = none) →
    (∃ blobs, (step outage (s.after step history) commitOp).1 = .ok (.blobs blobs)) ∧
      (step outage (s.after step history) commitOp).2.store = store

/-- The writes of a session are staged in an overlay over its store, and a commit is a
drain of the overlay. -/
structure StagesIn (step : Outage → Session φ → ω → Except Fault Answer × Session φ) (commitOp : ω)
    (write? : ω → Option (ι × δ)) (kind : BlobKind κ δ γ) (locate : ι → BlobKey × κ)
    (overlay : φ → Overlay κ δ γ) (Consistent : Session φ → Prop) : Prop where
  coherent : ∀ {s}, Consistent s → (overlay s.front).Coherent kind s.store
  write?_commit : write? commitOp = none
  write : ∀ outage {s op w}, write? op = some w → Consistent s →
    Consistent (step outage s op).2 ∧ (step outage s op).2.store = s.store ∧
      overlay (step outage s op).2.front =
        (overlay s.front).stage (locate w.1).1 (locate w.1).2 w.2
  commit : ∀ outage {s}, Consistent s → Consistent (step outage s commitOp).2 ∧
    ((∃ blobs o, (overlay s.front).drain kind (s.store.loader outage) = (.ok blobs, o) ∧
        (step outage s commitOp).1 = .ok (.blobs blobs) ∧
        (step outage s commitOp).2.store = s.store.apply blobs ∧
        overlay (step outage s commitOp).2.front = o) ∨
      ∃ fault, ((overlay s.front).drain kind (s.store.loader outage)).1 = .error fault ∧
        (step outage s commitOp).2 = s)

variable [Std.LawfulEqOrd κ]

/-- A commit merges what is staged, or fails and changes nothing. -/
theorem StagesIn.partlyDrained_commit
    (h : StagesIn step commitOp write? kind locate overlay Consistent) (hkind : kind.Faithful)
    (hcomposes : kind.Composes) (hs : Consistent s) {start : BlobStore} {all : Overlay κ δ γ}
    (hpartly : Overlay.PartlyDrained kind start all (overlay s.front) s.store) (outage : Outage) :
    Overlay.PartlyDrained kind start all (overlay (step outage s commitOp).2.front)
      (step outage s commitOp).2.store := by
  obtain ⟨-, ⟨blobs, o, hdrain, -, hstore, hfront⟩ | ⟨fault, -, hsame⟩⟩ := h.commit outage hs
  · rw [hstore, hfront]
    exact hpartly.drained hkind hcomposes (h.coherent hs) (Overlay.drained_of_drain hdrain s.store)
  · rwa [hsame]

/-- At any time all the writes that were made are merged or staged. -/
theorem StagesIn.partlyDrained_after
    (h : StagesIn step commitOp write? kind locate overlay Consistent) (hkind : kind.Faithful)
    (hcomposes : kind.Composes) (hs : Consistent s) (hempty : (overlay s.front).staged = ∅)
    (history : History ω) (hallowed : ∀ o ∈ history, o.2 = commitOp ∨ ∃ w, write? o.2 = some w) :
    Consistent (s.after step history) ∧
      Overlay.PartlyDrained kind s.store (Overlay.stageAll locate (writes write? history))
        (overlay (s.after step history).front) (s.after step history).store := by
  let Simulates : Session φ → List (ι × δ) → Prop := fun s' ws => Consistent s' ∧
    Overlay.PartlyDrained kind s.store (Overlay.stageAll locate ws) (overlay s'.front) s'.store
  let follow : List (ι × δ) → ω × Except Fault Answer → List (ι × δ) :=
    fun ws entry => ws ++ (write? entry.1).toList
  have hstart : Simulates s [] := by
    refine ⟨hs, fun key => .unmerged ?_ rfl⟩
    rw [hempty]
    rfl
  have hstep : ∀ (outage : Outage) (op : ω) (s' : Session φ) (ws : List (ι × δ)),
      (op = commitOp ∨ ∃ w, write? op = some w) → Simulates s' ws →
      Simulates (step outage s' op).2 (follow ws (op, (step outage s' op).1)) := by
    rintro outage op s' ws (rfl | ⟨w, hw⟩) ⟨hs', hpartly⟩
    · simp only [follow, h.write?_commit, Option.toList_none, List.append_nil]
      exact ⟨(h.commit outage hs').1, h.partlyDrained_commit hkind hcomposes hs' hpartly outage⟩
    · obtain ⟨hnext, hstore, hfront⟩ := h.write outage hw hs'
      simp only [Simulates, follow, hw, Option.toList_some, Overlay.stageAll_concat, hstore, hfront]
      exact ⟨hnext, hpartly.stage _ _ _⟩
  have hafter := simulates_after Simulates hstep hstart history hallowed
  rwa [foldl_trace_writes] at hafter

variable [DecidableEq κ] [Ord ι] [Std.TransOrd ι] [Std.LawfulEqOrd ι] [BEq ι] [LawfulBEq ι]

/-- The store that is left is the one where all the last writes are merged in one drain. -/
theorem StagesIn.exists_commitsTo
    (h : StagesIn step commitOp write? kind locate overlay Consistent) (hkind : kind.Faithful)
    (hcomposes : kind.Composes) (hlocate : Function.Injective locate) (hs : Consistent s)
    (hempty : (overlay s.front).staged = ∅) {last : Std.ExtTreeMap ι δ} {all : Overlay κ δ γ}
    (hlast : all = Overlay.stageAll locate last.toList)
    (hall : ∀ (key : BlobKey) changes, all.staged[key]? = some changes →
      ∃ base merged, kind.read s.store[key]? = .ok base ∧ kind.merge key base changes = .ok merged) :
    ∃ store, s.store.Merged kind all.staged store ∧
      CommitsTo step commitOp write? s last store := by
  obtain ⟨store, hstore⟩ := Overlay.exists_merged hkind hcomposes hall
  refine ⟨store, hstore, fun history outage hallowed hwrites hout => ?_⟩
  obtain ⟨hafter, hpartly⟩ := h.partlyDrained_after hkind hcomposes hs hempty history hallowed
  -- Of the writes of the history and the last ones, the same are left over at each place.
  have hsame : (Overlay.stageAll locate (writes write? history) : Overlay κ δ γ).staged =
      all.staged := by
    rw [hlast]
    refine Overlay.staged_stageAll_congr hlocate fun i => ?_
    rw [lookup_reverse_toList, ← hwrites, getElem?_lastByKeyMap]
  obtain ⟨blobs, hblobs⟩ := hpartly.exists_drain hkind hcomposes
    (h.coherent hafter) outage fun key changes hs => ⟨hout key, hall key changes (hsame ▸ hs)⟩
  obtain ⟨-, ⟨blobs', o, hdrain, hanswer, hleft, -⟩ | ⟨fault, hfault, -⟩⟩ :=
    h.commit outage hafter
  · have hd := Overlay.drained_of_drain hdrain (s.after step history).store
    have hmerged := (hpartly.drained hkind hcomposes (h.coherent hafter) hd).merged hd.staged
    rw [hsame] at hmerged
    exact ⟨⟨blobs', hanswer⟩, hleft.trans (hmerged.unique hstore)⟩
  · cases hblobs.symm.trans hfault

end ShardedRecords.Session
