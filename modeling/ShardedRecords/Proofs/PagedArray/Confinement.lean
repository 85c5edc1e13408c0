import ShardedRecords.Proofs.Overlay.Confinement
import ShardedRecords.Proofs.PagedArray.Basic
import ShardedRecords.Proofs.Session.Offline
import ShardedRecords.Session.ArraySession

/-!
# Which pages an array reads

A drain loads the pages with staged slots that are not cached, and a read loads the page of its
index, unless a value for the index is staged or the page is cached.
-/
namespace ShardedRecords

namespace PagedArray

variable {load load' : Loader} {a : PagedArray} {index : UInt64}

theorem drain_congr (h : ∀ page ∈ a.overlay.staged, page ∉ a.overlay.cache →
    load page = load' page) : a.drain load = a.drain load' := by
  unfold drain
  rw [Overlay.drain_congr h]

theorem get_congr (h : a.overlay.AtHand (a.locate index).1 (a.locate index).2 ∨
    load (a.locate index).1 = load' (a.locate index).1) :
    a.get load index = a.get load' index := by
  rw [get_eq, get_eq]
  cases hchange : a.overlay.change? (a.locate index).1 (a.locate index).2 with
  | some value => rfl
  | none => simp only [Overlay.fetch_congr hchange h]

/-- The operation needs nothing from the store. -/
def Serves (a : PagedArray) : ArrayOp → Prop
  | .get index => a.overlay.AtHand (a.locate index).1 (a.locate index).2
  | .drain => a.overlay.StagedCached
  | .commit => a.overlay.StagedCached
  | _ => True

theorem mem_cache_set (value : Bytes) {page : BlobKey} (h : page ∈ a.overlay.cache) :
    page ∈ (a.set index value).2.overlay.cache := by
  by_cases hlength : value.length = a.width
  · rwa [a.set_of_length_eq index hlength]
  · rwa [a.set_of_length_ne index hlength]

theorem mem_cache_get (load : Loader) (index : UInt64) {page : BlobKey}
    (h : page ∈ a.overlay.cache) : page ∈ (a.get load index).2.overlay.cache := by
  rcases a.get_snd load index with heq | heq <;> rw [heq]
  · exact h
  · exact Overlay.mem_cache_fetch _ load _ h

end PagedArray

def ArrayOp.onFront : ArrayOp → Bool
  | .store _ => false
  | _ => true

/-- After the operation nothing may be cached. -/
def ArrayOp.Forgets : ArrayOp → Prop
  | .clearCache => True
  | .reopen _ => True
  | _ => False

namespace ArraySession

theorem servedByFront :
    Session.ServedByFront ArraySession.step ArrayOp.onFront PagedArray.Serves Eq Eq := by
  constructor
  · intro outage s op hop
    cases op with
    | store op => rfl
    | _ => cases hop
  · rintro outage outage' ⟨array, store⟩ ⟨-, store'⟩ op _ hop rfl rfl hserves
    have hdrain : array.overlay.StagedCached →
        array.drain (store.loader outage) = array.drain (store'.loader outage') := by
      intro hcached
      unfold PagedArray.drain
      rw [hcached.drain_eq]
    cases op with
    | get index =>
      have hget : array.get (store.loader outage) index =
          array.get (store'.loader outage') index := PagedArray.get_congr (.inl hserves)
      simp only [step, hget]
      exact ⟨rfl, rfl⟩
    | drain =>
      simp only [step, hdrain hserves]
      exact ⟨rfl, rfl⟩
    | commit =>
      simp only [step, hdrain hserves, Session.commit_fst, Session.front_commit]
      exact ⟨trivial, trivial⟩
    | reopen config =>
      simp only [step, Session.reopen]
      split <;> exact ⟨rfl, rfl⟩
    | store op => cases hop
    | _ => exact ⟨rfl, rfl⟩

theorem mem_cache_step {outage : Outage} {s : ArraySession} {op : ArrayOp} {page : BlobKey}
    (hop : ¬op.Forgets) (h : page ∈ s.front.overlay.cache) :
    page ∈ (s.step outage op).2.front.overlay.cache := by
  cases op with
  | set index value => exact PagedArray.mem_cache_set value h
  | get index => exact PagedArray.mem_cache_get _ index h
  | drain => exact Overlay.mem_cache_drain _ _ h
  | commit =>
    simp only [step, Session.front_commit]
    exact Overlay.mem_cache_drain _ _ h
  | clearCache => exact absurd trivial hop
  | reopen config => exact absurd trivial hop
  | _ => exact h

/-- A history that forgets nothing leaves every cached page cached. -/
theorem mem_cache_after {s : ArraySession} {history : History ArrayOp} {page : BlobKey}
    (hhistory : ∀ o ∈ history, ¬o.2.Forgets) (h : page ∈ s.front.overlay.cache) :
    page ∈ (s.after ArraySession.step history).front.overlay.cache := by
  have hstep : ∀ outage op (s : ArraySession), ¬op.Forgets → page ∈ s.front.overlay.cache →
      page ∈ (s.step outage op).2.front.overlay.cache :=
    fun outage op s hop hs => mem_cache_step hop hs
  exact Session.holds_after hstep h history hhistory

end ArraySession

end ShardedRecords
