import ShardedRecords.Proofs.LastByKey
import ShardedRecords.Proofs.Overlay.Staging
import ShardedRecords.Proofs.PagedArray.Basic
import ShardedRecords.Proofs.Session.History
import ShardedRecords.Proofs.Slots
import ShardedRecords.Session.ArraySession

/-!
# Paged arrays as one flat array

A session on a paged array stands for one array with slots pending on it. An index
without a slot in the stored pages has no value, and writing makes no page longer:
a commit changes the bytes of the pending slots, and nothing else.
-/
namespace ShardedRecords

structure FlatArray where
  committed : UInt64 → Option Bytes
  pending : UInt64 → Option Bytes

namespace FlatArray

/-- A pending value hides what is committed. -/
def lookup (f : FlatArray) (index : UInt64) : Option Bytes :=
  (f.pending index).or (f.committed index)

def set (f : FlatArray) (index : UInt64) (value : Bytes) : FlatArray :=
  { f with pending := fun index' => if index = index' then some value else f.pending index' }

def discard (f : FlatArray) : FlatArray := { f with pending := fun _ => none }

def commit (f : FlatArray) : FlatArray := ⟨f.lookup, fun _ => none⟩

/-- What an operation does that succeeds. -/
def step (f : FlatArray) : ArrayOp → FlatArray
  | .set index value => f.set index value
  | .discard => f.discard
  | .reopen _ => f.discard
  | .commit => f.commit
  | _ => f

/-- An operation that fails does nothing. -/
def follow (f : FlatArray) : ArrayOp × Except Fault Answer → FlatArray
  | (op, .ok _) => f.step op
  | (_, .error _) => f

/-- The array in a store: at each index the bytes of its slot, if its page has them. -/
def stored (array : PagedArray) (store : BlobStore) : FlatArray where
  committed index := store[BlobKey.pack (index / array.pageSize)]? >>= fun page =>
    Bytes.slice? page ((index % array.pageSize).toNat * array.width) array.width
  pending _ := none

/-- The places that a commit writes. -/
def Written (array : PagedArray) (f : FlatArray) (place : BlobKey × Nat) : Prop :=
  ∃ index, f.pending index ≠ none ∧ array.locate index = place

theorem committed_stored (array : PagedArray) (store : BlobStore) (index : UInt64) :
    (stored array store).committed index = store[(array.locate index).1]? >>= fun page =>
      Bytes.slice? page ((array.locate index).2 * array.width) array.width := rfl

end FlatArray

/-- The operations of a session that changes its store by commits alone, and opens
arrays of one configuration. -/
def ArrayOp.Regular (config : PagedArray.Config) : ArrayOp → Prop
  | .reopen config' => config' = config
  | .drain => False
  | .store (.insert ..) => False
  | _ => True

namespace BlobStore

/-- The lengths of blobs in memory. -/
def Short (store : BlobStore) : Prop :=
  ∀ (key : BlobKey) blob, store[key]? = some blob → blob.length < UInt64.size / 2

/-- There are the same blobs in both stores, with the same bytes outside of some slots. -/
structure AlikeOutside (written : BlobKey × Nat → Prop) (width : Nat) (store store' : BlobStore) :
    Prop where
  lengths : ∀ key : BlobKey, store'[key]?.map List.length = store[key]?.map List.length
  bytes : ∀ (key : BlobKey) p, ¬written (key, p / width) →
    (store'[key]? >>= (·[p]?)) = (store[key]? >>= (·[p]?))

theorem Short.of_lengths {store store' : BlobStore} (h : store.Short)
    (hlengths : ∀ key : BlobKey, store'[key]?.map List.length = store[key]?.map List.length) :
    store'.Short := by
  intro key blob hblob
  have hlength := hlengths key
  rw [hblob] at hlength
  obtain ⟨blob', hblob', hlen⟩ := Option.map_eq_some_iff.mp hlength.symm
  rw [← hlen]
  exact h key blob' hblob'

end BlobStore

section Merged

variable {Allowed : BlobKey → Nat → Bytes → Prop} {o : Overlay Nat Bytes Bytes} {width : Nat}
  {store store' : BlobStore}

/-- A page with staged values is stored, or else they would not fit. -/
theorem BlobStore.Merged.page (h : store.Merged (Slots.blobKind width) o.staged store')
    (hwidth : 0 < width) (htidy : o.Tidy Allowed) (key : BlobKey) :
    o.staged[key]? = none ∧ store'[key]? = store[key]? ∨
      ∃ changes page page', o.staged[key]? = some changes ∧ store[key]? = some page ∧
        store'[key]? = some page' ∧ Slots.patch page width changes.toList = .ok page' := by
  cases hs : o.staged[key]? with
  | none => exact .inl ⟨rfl, h.other key hs⟩
  | some changes =>
    obtain ⟨base, page', blob, hread, hmerge, hstore⟩ := h.merged key changes hs
    obtain ⟨hpatch, rfl⟩ := Slots.merge_eq_ok.mp hmerge
    obtain ⟨slot, value, hvalue⟩ := htidy.nonempty key changes hs
    have hfits := Slots.fits_of_patch hpatch (slot, value)
      (Std.ExtTreeMap.mem_toList_iff_getElem?_eq_some.mpr hvalue)
    cases hpage : store[key]? with
    | some page =>
      rw [hpage] at hread
      cases hread
      exact .inr ⟨changes, page, blob, rfl, rfl, hstore, hpatch⟩
    | none =>
      rw [hpage] at hread
      cases hread
      rw [Option.getD_none, List.length_nil] at hfits
      omega

theorem BlobStore.Merged.alikeOutside (h : store.Merged (Slots.blobKind width) o.staged store')
    (hwidth : 0 < width) (htidy : o.Tidy Allowed) {written : BlobKey × Nat → Prop}
    (hwritten : ∀ key slot value, o.change? key slot = some value → written (key, slot)) :
    store.AlikeOutside written width store' := by
  constructor
  · intro key
    rcases h.page hwidth htidy key with ⟨-, hsame⟩ | ⟨changes, page, page', -, hold, hnew, hpatch⟩
    · rw [hsame]
    · rw [hold, hnew, Option.map_some, Option.map_some, Slots.length_of_patch hpatch]
  · intro key p hp
    rcases h.page hwidth htidy key with ⟨-, hsame⟩ | ⟨changes, page, page', hs, hold, hnew, hpatch⟩
    · rw [hsame]
    · have hbyte := Slots.getElem?_of_patch hwidth hpatch p
      rw [lookup_reverse_toList] at hbyte
      rw [hold, hnew]
      show page'[p]? = page[p]?
      rw [hbyte]
      cases hc : changes[p / width]? with
      | none => rfl
      | some value =>
        refine absurd (hwritten key _ value ?_) hp
        rw [Overlay.change?, hs]
        exact hc

/-- A slot that was not changed is as before, if it was there. -/
theorem BlobStore.Merged.slice? (h : store.Merged (Slots.blobKind width) o.staged store')
    (hwidth : 0 < width) (htidy : o.Tidy Allowed) (key : BlobKey) (slot : Nat) :
    (store'[key]? >>= fun page => Bytes.slice? page (slot * width) width) =
      (o.change? key slot).or
        (store[key]? >>= fun page => Bytes.slice? page (slot * width) width) := by
  rw [Overlay.change?]
  rcases h.page hwidth htidy key with ⟨hs, hsame⟩ | ⟨changes, page, page', hs, hold, hnew, hpatch⟩
  · rw [hs, hsame]
    rfl
  · have hslot := Slots.slice?_of_patch hpatch slot
    rw [lookup_reverse_toList] at hslot
    rw [hs, hold, hnew]
    exact hslot

end Merged

namespace ArraySession

variable {array : PagedArray} {config : PagedArray.Config} {s : ArraySession} {outage : Outage}

/-- What a session stands for. -/
def flat (s : ArraySession) : FlatArray where
  committed := (FlatArray.stored s.front s.store).committed
  pending index := s.front.overlay.change? (s.front.locate index).1 (s.front.locate index).2

/-- The session is one on an array that was opened like `array`. What it has cached is
what the store holds, and what it has staged was accepted. -/
structure Consistent (array : PagedArray) (s : ArraySession) : Prop where
  pageSize : s.front.pageSize = array.pageSize
  slotWidth : s.front.slotWidth = array.slotWidth
  width_pos : 0 < s.front.width
  coherent : s.front.overlay.Coherent (Slots.blobKind s.front.width) s.store
  tidy : s.front.overlay.Tidy s.front.Accepts
  short : s.store.Short

theorem Consistent.width_eq (h : Consistent array s) : s.front.width = array.width :=
  congrArg UInt64.toNat h.slotWidth

theorem Consistent.locate_eq (h : Consistent array s) : s.front.locate = array.locate := by
  funext index
  rw [PagedArray.locate, h.pageSize]
  rfl

theorem Consistent.stored_eq (h : Consistent array s) (store : BlobStore) :
    FlatArray.stored s.front store = FlatArray.stored array store := by
  rw [FlatArray.stored, FlatArray.stored, FlatArray.mk.injEq]
  refine ⟨?_, rfl⟩
  funext index
  rw [h.pageSize, h.width_eq]

theorem consistent_of_ofConfig (h : PagedArray.ofConfig config = .ok array) {store : BlobStore}
    (hshort : store.Short) :
    Consistent array ⟨array, store⟩ ∧ flat ⟨array, store⟩ = FlatArray.stored array store := by
  obtain ⟨_, hvalid, rfl⟩ := Except.map_eq_ok.mp h
  have hwidth : config.slotWidth ≠ 0 := by
    intro hzero
    rw [PagedArray.Config.validate, if_pos hzero] at hvalid
    split at hvalid <;> cases hvalid
  constructor
  · exact {
      pageSize := rfl
      slotWidth := rfl
      width_pos := Nat.pos_of_ne_zero fun hzero => hwidth (UInt64.toNat_inj.mp hzero)
      coherent := Overlay.coherent_empty
      tidy := Overlay.tidy_of_staged_eq_empty rfl
      short := hshort }
  · rw [flat, FlatArray.mk.injEq]
    exact ⟨rfl, funext fun index => Overlay.change?_empty _ _⟩

/-- A front that places indices alike over the same store differs at most in what is
pending. -/
theorem flat_of_front (s : ArraySession) (front : PagedArray)
    (hp : front.pageSize = s.front.pageSize) (hw : front.slotWidth = s.front.slotWidth) :
    flat { s with front } = { s.flat with
      pending := fun index =>
        front.overlay.change? (s.front.locate index).1 (s.front.locate index).2 } := by
  have hlocate : front.locate = s.front.locate := by
    funext index
    rw [PagedArray.locate, hp]
    rfl
  have hwidth : front.width = s.front.width := congrArg UInt64.toNat hw
  rw [flat, flat, FlatArray.mk.injEq, hlocate]
  refine ⟨?_, rfl⟩
  funext index
  simp only [FlatArray.stored, hp, hwidth]

/-! ## Single operations -/

theorem flat_set (s : ArraySession) (index : UInt64) {value : Bytes}
    (hlen : value.length = s.front.width) :
    flat { s with front := (s.front.set index value).2 } = s.flat.set index value := by
  have hset := s.front.set_of_length_eq index hlen
  rw [flat_of_front s (s.front.set index value).2 (by rw [hset]) (by rw [hset]), hset,
    FlatArray.set, FlatArray.mk.injEq]
  refine ⟨rfl, funext fun index' => ?_⟩
  rw [Overlay.change?_stage]
  by_cases h : index = index'
  · subst h
    rw [if_pos ⟨rfl, rfl⟩, if_pos rfl]
  · rw [if_neg (fun hc => h (s.front.locate_injective (Prod.ext hc.1 hc.2))), if_neg h]
    rfl

theorem Consistent.set (h : Consistent array s) (outage : Outage) (index : UInt64) (value : Bytes) :
    Consistent array (s.step outage (.set index value)).2 ∧
      (s.step outage (.set index value)).2.flat =
        s.flat.follow (.set index value, (s.step outage (.set index value)).1) := by
  by_cases hlen : value.length = s.front.width
  · have hset := s.front.set_of_length_eq index hlen
    have hflat := s.flat_set index hlen
    rw [ArraySession.step, Session.answer]
    rw [hset] at hflat ⊢
    refine ⟨?_, hflat⟩
    exact { h with
      coherent := h.coherent.of_cache_eq rfl
      tidy := h.tidy.stage ⟨hlen, index, rfl⟩ }
  · rw [ArraySession.step, s.front.set_of_length_ne index hlen]
    exact ⟨h, rfl⟩

theorem flat_discard (s : ArraySession) :
    flat { s with front := s.front.discard } = s.flat.discard := by
  rw [flat_of_front s s.front.discard rfl rfl, FlatArray.discard, FlatArray.mk.injEq]
  exact ⟨rfl, funext fun _ => Overlay.change?_discard _ _ _⟩

theorem flat_clearCache (s : ArraySession) :
    flat { s with front := s.front.clearCache } = s.flat := by
  rw [flat_of_front s s.front.clearCache rfl rfl]
  rfl

theorem flat_get (s : ArraySession) (load : Loader) (index : UInt64) :
    flat { s with front := (s.front.get load index).2 } = s.flat := by
  rcases PagedArray.get_snd load s.front index with h | h
  · rw [h]
  · rw [flat_of_front s (s.front.get load index).2 (by rw [h]) (by rw [h]), h]
    simp only [Overlay.change?_fetch]
    rfl

theorem Consistent.get (h : Consistent array s) (outage : Outage) (index : UInt64) :
    Consistent array { s with front := (s.front.get (s.store.loader outage) index).2 } := by
  rcases PagedArray.get_snd (s.store.loader outage) s.front index with hs | hs
  · rwa [hs]
  · rw [hs]
    exact { h with
      coherent := h.coherent.fetch outage _
      tidy := h.tidy.of_staged_eq (Overlay.staged_fetch ..) }

theorem pending_flat (s : ArraySession) (index : UInt64) : s.flat.pending index =
    s.front.overlay.change? (s.front.locate index).1 (s.front.locate index).2 := rfl

theorem lookup_flat (s : ArraySession) (index : UInt64) : s.flat.lookup index =
    (s.front.overlay.change? (s.front.locate index).1 (s.front.locate index).2).or
      ((FlatArray.stored s.front s.store).committed index) := rfl

/-- A missing page is as good as an empty one. -/
theorem Consistent.get?_page (h : Consistent array s) (index : UInt64) :
    Slots.get? (s.store[(s.front.locate index).1]?.getD []) (s.front.locate index).2 s.front.width =
      (FlatArray.stored s.front s.store).committed index := by
  rw [FlatArray.committed_stored]
  cases hpage : s.store[(s.front.locate index).1]? with
  | some page =>
    have hlen : page.length < UInt64.size / 2 := h.short _ page hpage
    rw [Option.getD_some, Slots.get?_eq_slice? (by omega)]
    rfl
  | none =>
    have hempty : ¬(s.front.locate index).2 * s.front.width + s.front.width ≤ 0 := by
      have := h.width_pos
      omega
    rw [Option.getD_none, Slots.get?_eq_slice? (by decide)]
    exact if_neg hempty

theorem Consistent.lookup_of_get (h : Consistent array s) {index : UInt64} {value : Option Bytes}
    (hget : (s.front.get (s.store.loader outage) index).1 = .ok value) :
    s.flat.lookup index = value := by
  rw [PagedArray.get_fst] at hget
  rw [lookup_flat]
  cases hc : s.front.overlay.change? (s.front.locate index).1 (s.front.locate index).2 with
  | some v =>
    rw [hc] at hget
    exact Except.ok.inj hget
  | none =>
    rw [hc] at hget
    obtain ⟨page, hbase, rfl⟩ := Except.map_eq_ok.mp hget
    have hread : s.store[(s.front.locate index).1]?.getD [] = page :=
      Except.ok.inj (h.coherent.read_of_base hbase)
    rw [Option.none_or, ← h.get?_page, hread]

/-- As long as the page is not out, an index is answered with what it stands for. -/
theorem Consistent.get_eq_lookup (h : Consistent array s) {index : UInt64}
    (hout : outage (s.front.locate index).1 = none) :
    (s.front.get (s.store.loader outage) index).1 = .ok (s.flat.lookup index) := by
  rw [PagedArray.get_fst, lookup_flat, ← h.get?_page, h.coherent.base_eq_read hout]
  cases s.front.overlay.change? (s.front.locate index).1 (s.front.locate index).2 <;> rfl

/-! ## Commits -/

/-- A commit drains the front into the store, or fails and changes nothing. -/
theorem commit_cases (s : ArraySession) (outage : Outage) :
    (∃ blobs o, s.front.overlay.drain (Slots.blobKind s.front.width) (s.store.loader outage) =
        (.ok blobs, o) ∧ s.step outage .commit =
        (.ok (.blobs blobs), ⟨{ s.front with overlay := o }, s.store.apply blobs⟩)) ∨
    ∃ fault, (s.front.overlay.drain (Slots.blobKind s.front.width)
        (s.store.loader outage)).1 = .error fault ∧ s.step outage .commit = (.error fault, s) := by
  unfold ArraySession.step
  rcases s.front.drain_cases (s.store.loader outage) with ⟨blobs, o, hd, heq⟩ | ⟨fault, hd, heq⟩
  · exact .inl ⟨blobs, o, hd, by rw [heq]; rfl⟩
  · exact .inr ⟨fault, congrArg Prod.fst hd, by rw [heq]; rfl⟩

section Commit

variable {o : Overlay Nat Bytes Bytes} {store : BlobStore}

/-- A commit changes the bytes of the pending slots at most. -/
theorem Consistent.alike_of_commit (h : Consistent array s) (hd : Overlay.Drained
    (Slots.blobKind s.front.width) (s.store.loader outage) s.front.overlay s.store o store) :
    s.store.AlikeOutside (s.flat.Written s.front) s.front.width store := by
  refine (h.coherent.merged hd).alikeOutside h.width_pos h.tidy fun key slot value hvalue => ?_
  obtain ⟨-, index, hindex⟩ := h.tidy.allowed_of_change? hvalue
  refine ⟨index, ?_, hindex⟩
  rw [pending_flat, hindex, hvalue]
  exact Option.some_ne_none value

/-- A page is committed as a whole. The slots without pending values keep their bytes,
and no other page is touched. -/
theorem Consistent.commit (h : Consistent array s) (hd : Overlay.Drained
    (Slots.blobKind s.front.width) (s.store.loader outage) s.front.overlay s.store o store) :
    Consistent array ⟨{ s.front with overlay := o }, store⟩ ∧
      flat ⟨{ s.front with overlay := o }, store⟩ = s.flat.commit := by
  constructor
  · exact {
      pageSize := h.pageSize
      slotWidth := h.slotWidth
      width_pos := h.width_pos
      coherent := h.coherent.drained (Slots.faithful_blobKind _) hd
      tidy := Overlay.tidy_of_staged_eq_empty hd.staged
      short := h.short.of_lengths (h.alike_of_commit hd).lengths }
  · rw [flat, FlatArray.commit, FlatArray.mk.injEq]
    constructor
    · funext index
      rw [lookup_flat]
      exact (h.coherent.merged hd).slice? h.width_pos h.tidy _ _
    · funext index
      rw [Overlay.change?, hd.staged]
      rfl

end Commit

/-! ## Histories -/

/-- Each operation does to what the session stands for what it does to a flat array. -/
theorem Consistent.step (hopen : PagedArray.ofConfig config = .ok array) (outage : Outage)
    (op : ArrayOp) (s : ArraySession) (hop : op.Regular config) (h : Consistent array s) :
    Consistent array (s.step outage op).2 ∧
      (s.step outage op).2.flat = s.flat.follow (op, (s.step outage op).1) := by
  cases op with
  | set index value => exact h.set outage index value
  | get index =>
    refine ⟨h.get outage index, ?_⟩
    rw [ArraySession.step, Session.answer, flat_get]
    cases (s.front.get (s.store.loader outage) index).1 <;> rfl
  | locate index => exact ⟨h, rfl⟩
  | discard =>
    refine ⟨?_, flat_discard s⟩
    exact { h with
      coherent := h.coherent.of_cache_eq rfl
      tidy := Overlay.tidy_of_staged_eq_empty rfl }
  | clearCache =>
    refine ⟨?_, flat_clearCache s⟩
    exact { h with
      coherent := Overlay.coherent_clearCache _
      tidy := h.tidy.of_staged_eq rfl }
  | drain => cases hop
  | commit =>
    rcases s.commit_cases outage with ⟨blobs, o, hd, hstep⟩ | ⟨fault, -, hstep⟩
    · rw [hstep]
      exact h.commit (Overlay.drained_of_drain hd s.store)
    · rw [hstep]
      exact ⟨h, rfl⟩
  | reopen config' =>
    subst hop
    obtain ⟨hnew, hflat⟩ := consistent_of_ofConfig hopen h.short
    rw [ArraySession.step, hopen]
    refine ⟨hnew, hflat.trans ?_⟩
    rw [← h.stored_eq]
    rfl
  | store op =>
    cases op with
    | insert index blob => cases hop
    | get index => exact ⟨h, rfl⟩

theorem Consistent.alike_of_step_commit (h : Consistent array s) {answer : Answer}
    (hanswer : (s.step outage .commit).1 = .ok answer) :
    s.store.AlikeOutside (s.flat.Written s.front) s.front.width
      (s.step outage .commit).2.store := by
  rcases s.commit_cases outage with ⟨blobs, o, hd, hstep⟩ | ⟨fault, -, hstep⟩
  · rw [hstep]
    exact h.alike_of_commit (Overlay.drained_of_drain hd s.store)
  · rw [hstep] at hanswer
    cases hanswer

theorem store_of_step_error (s : ArraySession) {op : ArrayOp} {fault : Fault}
    (h : (s.step outage op).1 = .error fault) : (s.step outage op).2.store = s.store := by
  cases op with
  | commit =>
    rcases s.commit_cases outage with ⟨blobs, o, hd, hstep⟩ | ⟨fault', -, hstep⟩
    · rw [hstep] at h
      cases h
    · rw [hstep]
  | reopen config =>
    rw [ArraySession.step] at h ⊢
    cases hopen : PagedArray.ofConfig config with
    | ok front => rfl
    | error f => rfl
  | store op => cases h
  | _ => rfl

/-- After every history the session stands for what the operations that succeeded have
made of a flat array. What is read is what stands there, and it is read unless the store
is out; a fault changes nothing; and a commit that succeeds writes the pending values
into the pages that there are, and no other byte of the store. -/
theorem refines_flatArray (hopen : PagedArray.ofConfig config = .ok array) {store : BlobStore}
    (hshort : store.Short) (history : History ArrayOp)
    (hregular : ∀ o ∈ history, o.2.Regular config) :
    let s := Session.after step ⟨array, store⟩ history
    let f := (Session.trace step ⟨array, store⟩ history).foldl FlatArray.follow
      (FlatArray.stored array store)
    flat s = f ∧
      (∀ outage index answer, (step outage s (.get index)).1 = .ok answer →
        answer = .value (f.lookup index)) ∧
      (∀ outage index, outage (array.locate index).1 = none →
        (step outage s (.get index)).1 = .ok (.value (f.lookup index))) ∧
      (∀ outage op fault, op.Regular config → (step outage s op).1 = .error fault →
        flat (step outage s op).2 = f ∧ (step outage s op).2.store = s.store) ∧
      ∀ outage answer, (step outage s .commit).1 = .ok answer →
        flat (step outage s .commit).2 = f.commit ∧
          s.store.AlikeOutside (f.Written array) array.width (step outage s .commit).2.store := by
  intro s f
  have hstart := consistent_of_ofConfig hopen hshort
  obtain ⟨h, hflat⟩ : Consistent array s ∧ flat s = f :=
    Session.simulates_after (fun s f => Consistent array s ∧ flat s = f)
      (fun outage op s f hop hs => hs.2 ▸ hs.1.step hopen outage op s hop) hstart history hregular
  refine ⟨hflat, fun outage index answer hanswer => ?_, fun outage index hout => ?_,
    fun outage op fault hop herror => ⟨?_, store_of_step_error s herror⟩,
    fun outage answer hanswer => ⟨?_, ?_⟩⟩
  · obtain ⟨value, hvalue, rfl⟩ := Except.map_eq_ok.mp hanswer
    rw [← hflat, h.lookup_of_get hvalue]
  · have hget : (s.front.get (s.store.loader outage) index).1 = .ok ((flat s).lookup index) :=
      h.get_eq_lookup (by rwa [h.locate_eq])
    rw [← hflat]
    exact congrArg (Except.map Answer.value) hget
  · rw [(h.step hopen outage op s hop).2, herror, hflat]
    rfl
  · rw [(h.step hopen outage .commit s trivial).2, hanswer, hflat]
    rfl
  · have hwritten : (flat s).Written s.front = f.Written array := by
      unfold FlatArray.Written
      rw [hflat, h.locate_eq]
    have halike := h.alike_of_step_commit hanswer
    rwa [hwritten, h.width_eq] at halike

/-- Two pages of two slots, of which the second is too short for any, and the store is out
during the first commit. -/
theorem refines_flatArray_short_page :
    let config : PagedArray.Config := ⟨2, 2⟩
    let array : PagedArray := ⟨2, 2, .empty⟩
    let store := BlobStore.ofIndexed [(0, [1, 2, 3, 4, 5]), (1, [6])]
    let history : History ArrayOp :=
      [(fun _ => none, .set 1 [7, 8]), (fun _ => some "out", .commit), (fun _ => none, .commit),
        (fun _ => none, .set 0 [9]), (fun _ => none, .set 2 [9, 9]), (fun _ => none, .commit)]
    let s := Session.after step ⟨array, store⟩ history
    (PagedArray.ofConfig config = .ok array ∧ store.Short ∧ ∀ o ∈ history, o.2.Regular config) ∧
      (step (fun _ => none) s (.get 1)).1 = .ok (.value (some [7, 8])) ∧
      (step (fun _ => none) s (.get 2)).1 = .ok (.value (some [9, 9])) ∧
      (step (fun _ => none) s (.get 3)).1 = .ok (.value none) := by
  intro config array store history s
  have hopen : PagedArray.ofConfig config = .ok array := rfl
  have hshort : store.Short := by
    intro key blob hblob
    have hmem := Std.ExtTreeMap.mem_toList_iff_getElem?_eq_some.mpr hblob
    have hall : ∀ entry ∈ store.toList, entry.2.length < UInt64.size / 2 := by decide +kernel
    exact hall _ hmem
  have hregular : ∀ o ∈ history, o.2.Regular config := by
    simp [history, ArrayOp.Regular]
  obtain ⟨-, -, hread, -, -⟩ := refines_flatArray hopen hshort history hregular
  refine ⟨⟨hopen, hshort, hregular⟩, ?_, ?_, ?_⟩
  · rw [hread _ _ rfl]
    decide +kernel
  · rw [hread _ _ rfl]
    decide +kernel
  · rw [hread _ _ rfl]
    decide +kernel

end ArraySession

end ShardedRecords
