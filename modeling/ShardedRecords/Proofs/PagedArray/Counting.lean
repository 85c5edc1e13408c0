import ShardedRecords.Proofs.Overlay.Counting
import ShardedRecords.Proofs.PagedArray.Reachable

/-!
# How many slots of an array are staged

An array that is used counts the different indices at which a value was accepted since it was
last discarded or drained, and their pages. What is staged fits into a slot of a page.
-/
namespace ShardedRecords.PagedArray

variable {config : PagedArray.Config} {a : PagedArray} {indices : List UInt64}

/-- What an array can be after any operations, with the indices at which a value was accepted
since it was last discarded or drained without a fault. -/
inductive Touched (config : PagedArray.Config) : List UInt64 → PagedArray → Prop
  | opened {a : PagedArray} : ofConfig config = .ok a → Touched config [] a
  | accepted {indices : List UInt64} {a : PagedArray} {index : UInt64} {value : Bytes} :
      (a.set index value).1 = .ok () →
      Touched config indices a → Touched config (indices ++ [index]) (a.set index value).2
  | refused {indices : List UInt64} {a : PagedArray} {index : UInt64} {value : Bytes}
      {fault : Fault} : (a.set index value).1 = .error fault →
      Touched config indices a → Touched config indices (a.set index value).2
  | get {indices : List UInt64} {a : PagedArray} (load : Loader) (index : UInt64) :
      Touched config indices a → Touched config indices (a.get load index).2
  | discard {indices : List UInt64} {a : PagedArray} :
      Touched config indices a → Touched config [] a.discard
  | clearCache {indices : List UInt64} {a : PagedArray} :
      Touched config indices a → Touched config indices a.clearCache
  | drained {indices : List UInt64} {a : PagedArray} {load : Loader}
      {blobs : List (BlobKey × Bytes)} : (a.drain load).1 = .ok blobs →
      Touched config indices a → Touched config [] (a.drain load).2
  | failed {indices : List UInt64} {a : PagedArray} {load : Loader} {fault : Fault} :
      (a.drain load).1 = .error fault →
      Touched config indices a → Touched config indices (a.drain load).2

theorem Touched.reachable (h : Touched config indices a) :
    Reachable (fun _ => True) config a := by
  induction h with
  | opened hopen => exact .opened hopen
  | accepted _ _ ih => exact ih.set _ _
  | refused _ _ ih => exact ih.set _ _
  | get load index _ ih => exact .get index trivial ih
  | discard _ ih => exact ih.discard
  | clearCache _ ih => exact ih.clearCache
  | drained _ _ ih => exact .drain trivial ih
  | failed _ _ ih => exact .drain trivial ih

theorem Reachable.exists_touched (h : Reachable (fun _ => True) config a) :
    ∃ indices, Touched config indices a := by
  induction h with
  | opened hopen => exact ⟨_, .opened hopen⟩
  | @set a index value _ ih =>
    obtain ⟨indices, h⟩ := ih
    cases hset : (a.set index value).1 with
    | ok _ => exact ⟨_, h.accepted hset⟩
    | error fault => exact ⟨_, h.refused hset⟩
  | get index _ _ ih => exact ⟨_, ih.choose_spec.get _ index⟩
  | discard _ ih => exact ⟨_, ih.choose_spec.discard⟩
  | clearCache _ ih => exact ⟨_, ih.choose_spec.clearCache⟩
  | @drain a load _ _ ih =>
    obtain ⟨indices, h⟩ := ih
    cases hdrain : (a.drain load).1 with
    | ok blobs => exact ⟨_, h.drained hdrain⟩
    | error fault => exact ⟨_, h.failed hdrain⟩

/-- An array keeps the shape that it was opened with. -/
theorem Reachable.shape (h : Reachable (fun _ => True) config a) :
    a.pageSize = config.pageSize ∧ a.slotWidth = config.slotWidth ∧ config.pageSize ≠ 0 := by
  induction h with
  | opened hopen =>
    obtain ⟨_, hvalid, rfl⟩ := Except.map_eq_ok.mp hopen
    refine ⟨rfl, rfl, fun hzero => ?_⟩
    rw [Config.validate, if_pos hzero] at hvalid
    cases hvalid
  | @set a index value _ ih =>
    by_cases hlength : value.length = a.width
    · rwa [a.set_of_length_eq index hlength]
    · rwa [a.set_of_length_ne index hlength]
  | @get a load index _ _ ih =>
    rcases a.get_snd load index with heq | heq <;> rwa [heq]
  | discard _ ih => exact ih
  | clearCache _ ih => exact ih
  | drain _ _ ih => exact ih

/-- Each value is staged for an index at which it was accepted. -/
theorem Touched.files (h : Touched config indices a) : a.overlay.Files a.locate indices := by
  induction h with
  | opened hopen =>
    obtain ⟨_, -, rfl⟩ := Except.map_eq_ok.mp hopen
    exact .of_staged_eq_empty rfl
  | @accepted indices a index value hok _ ih =>
    by_cases hlength : value.length = a.width
    · rw [a.set_of_length_eq index hlength]
      exact ih.stage index value
    · rw [a.set_of_length_ne index hlength] at hok
      cases hok
  | @refused indices a index value fault herror _ ih =>
    by_cases hlength : value.length = a.width
    · rw [a.set_of_length_eq index hlength] at herror
      cases herror
    · rwa [a.set_of_length_ne index hlength]
  | @get indices a load index _ ih =>
    rcases a.get_snd load index with heq | heq <;> rw [heq]
    · exact ih
    · exact ih.of_staged_eq (Overlay.staged_fetch ..)
  | discard _ _ => exact .of_staged_eq_empty rfl
  | clearCache _ ih => exact ih.of_staged_eq rfl
  | drained hok _ _ => exact .of_drain_ok hok
  | failed herror _ ih => exact ih.of_drain_error herror

/-- What an array has staged, by the indices at which values were accepted. -/
structure Tally (config : PagedArray.Config) (indices : List UInt64) (a : PagedArray) :
    Prop where
  counts : a.overlay.Counts a.locate indices
  fits : ∀ (page : BlobKey) values, a.overlay.staged[page]? = some values →
    ∀ (slot : Nat) value, values[slot]? = some value →
      slot < config.pageSize.toNat ∧ value.length = config.slotWidth.toNat

theorem Touched.tally (h : Touched config indices a) : a.Tally config indices := by
  have hsound : a.overlay.Sound a.Accepts fun _ _ => True :=
    h.reachable.sound (fun a => a.keeps_length fun _ => True) fun _ _ _ _ _ _ _ _ => trivial
  refine ⟨h.files.counts hsound.tidy a.locate_injective, ?_⟩
  intro page values hpage slot value hvalue
  obtain ⟨hpageSize, hslotWidth, hne⟩ := h.reachable.shape
  obtain ⟨hlength, index, hlocate⟩ := hsound.tidy.allowed page values hpage slot value hvalue
  constructor
  · have hslot : slot = (index % a.pageSize).toNat := (Prod.mk.inj hlocate).2.symm
    rw [hslot, hpageSize]
    exact UInt64.lt_iff_toNat_lt.mp (UInt64.mod_lt _ (UInt64.pos_iff_ne_zero.mpr hne))
  · rw [hlength, width, hslotWidth]

end ShardedRecords.PagedArray
