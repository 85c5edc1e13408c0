import ShardedRecords.Proofs.PagedArray.Reachable

/-!
# Draining a paged array

A drain writes every page with staged slots, or none. It can only fail because a page
cannot be loaded or because a staged slot does not exist: that no value has the wrong
length was seen to when it was staged.
-/
namespace ShardedRecords

namespace PagedArray

variable {load : Loader} {config : PagedArray.Config} {a : PagedArray} {page : BlobKey}
  {changes : Std.ExtTreeMap Nat Bytes} {content : Bytes}

/-- What a page has without its staged slots: the cached bytes, else the stored ones,
and none if there is no such page. -/
inductive Holds (load : Loader) (a : PagedArray) (page : BlobKey) : Bytes → Prop
  | cached {content : Bytes} (hcache : a.overlay.cache[page]? = some content) :
      Holds load a page content
  | missing (hcache : a.overlay.cache[page]? = none) (hload : load page = .ok none) :
      Holds load a page []
  | stored {blob : Bytes} (hcache : a.overlay.cache[page]? = none)
      (hload : load page = .ok (some blob)) : Holds load a page blob

/-- The page is cached or can be loaded, and all staged slots of it exist. -/
def Mergeable (load : Loader) (a : PagedArray) (page : BlobKey)
    (changes : Std.ExtTreeMap Nat Bytes) : Prop :=
  ∃ content, a.Holds load page content ∧
    ∀ (slot : Nat) value, changes[slot]? = some value → (slot + 1) * a.width ≤ content.length

/-- What goes wrong with a page: it cannot be loaded, or it is too short for a staged
slot, of which the smallest is named. -/
inductive Fails (load : Loader) (a : PagedArray) (page : BlobKey)
    (changes : Std.ExtTreeMap Nat Bytes) : Fault → Prop
  | out {reason : String} (hcache : a.overlay.cache[page]? = none)
      (hload : load page = .error reason) : Fails load a page changes (.store reason)
  | noSlot {content : Bytes} {slot : Nat} {value : Bytes} (hpage : a.Holds load page content)
      (hslot : changes[slot]? = some value) (hshort : content.length < (slot + 1) * a.width)
      (hfirst : ∀ slot' value', slot' < slot → changes[slot']? = some value' →
        (slot' + 1) * a.width ≤ content.length) :
      Fails load a page changes (.slots (.outOfRange slot a.width content.length))

theorem holds_iff : a.Holds load page content ↔
    a.overlay.base (Slots.blobKind a.width) load page = .ok content := by
  rw [Overlay.base_eq_ok]
  constructor
  · rintro (hcache | ⟨hcache, hload⟩ | ⟨hcache, hload⟩)
    · exact .inl hcache
    · exact .inr ⟨hcache, none, hload, rfl⟩
    · exact .inr ⟨hcache, some content, hload, rfl⟩
  · rintro (hcache | ⟨hcache, blob, hload, hread⟩)
    · exact .cached hcache
    · cases hread
      cases blob with
      | none => exact .missing hcache hload
      | some blob => exact .stored hcache hload

/-! ## A single page -/

/-- The values have the length of a slot, and the page a length in words. -/
structure Writes (a : PagedArray) (changes : Std.ExtTreeMap Nat Bytes) (content : Bytes) :
    Prop where
  length : content.length < UInt64.size
  values : ∀ write ∈ changes.toList, write.2.length = a.width

theorem Writes.exists_patch_iff (h : a.Writes changes content) :
    (∃ out, Slots.patch content a.width changes.toList = .ok out) ↔
      ∀ (slot : Nat) value, changes[slot]? = some value →
        (slot + 1) * a.width ≤ content.length := by
  simp only [Slots.exists_patch_iff_of_lengths h.length h.values, Prod.forall,
    Std.ExtTreeMap.mem_toList_iff_getElem?_eq_some]

/-- The slots are written in ascending order, so the smallest that is missing is named. -/
theorem Writes.fails_of_patch_error (h : a.Writes changes content)
    (hpage : a.Holds load page content) {f : SlotError}
    (hpatch : Slots.patch content a.width changes.toList = .error f) :
    a.Fails load page changes (.slots f) := by
  obtain ⟨before, ⟨slot, value⟩, after, hsplit, hbefore, hshort, rfl⟩ :=
    Slots.exists_first_missing_of_patch_error h.length h.values hpatch
  have hmem : (slot, value) ∈ changes.toList := by simp [hsplit]
  apply Fails.noSlot hpage (Std.ExtTreeMap.mem_toList_iff_getElem?_eq_some.mp hmem) hshort
  intro slot' value' hlt hslot'
  have hcompare : compare slot' slot = .lt := Nat.compare_eq_lt.mpr hlt
  exact hbefore (slot', value') (mem_of_toList_eq_append hsplit hcompare hslot')

/-! ## Reachable arrays -/

namespace Reachable

variable (h : Reachable Loader.Short config a) (hshort : load.Short)
include h

theorem sound_short :
    a.overlay.Sound a.Accepts fun _ page => page.length < UInt64.size / 2 :=
  h.sound (fun a => a.keeps_length (· < UInt64.size / 2)) fun _ hload => hload.reads

include hshort

theorem writes_of_base (hstaged : a.overlay.staged[page]? = some changes)
    (hbase : a.overlay.base (Slots.blobKind a.width) load page = .ok content) :
    a.Writes changes content := by
  constructor
  · have hlength := h.sound_short.of_base (hshort.reads a.width page) hbase
    omega
  · rintro ⟨slot, value⟩ hwrite
    have hvalue := Std.ExtTreeMap.mem_toList_iff_getElem?_eq_some.mp hwrite
    exact (h.sound_short.tidy.allowed page changes hstaged slot value hvalue).1

theorem exists_mergeBlob_iff (hstaged : a.overlay.staged[page]? = some changes) :
    (∃ m, a.overlay.mergeBlob (Slots.blobKind a.width) load (page, changes) = .ok m) ↔
      a.Mergeable load page changes := by
  constructor
  · rintro ⟨m, hmerged⟩
    obtain ⟨-, content, hbase, hmerge⟩ := Overlay.mergeBlob_eq_ok.mp hmerged
    have hwrites := h.writes_of_base hshort hstaged hbase
    obtain ⟨hpatch, -⟩ := Slots.merge_eq_ok.mp hmerge
    exact ⟨content, holds_iff.mpr hbase, hwrites.exists_patch_iff.mp ⟨_, hpatch⟩⟩
  · rintro ⟨content, hpage, hfits⟩
    have hbase := holds_iff.mp hpage
    obtain ⟨out, hpatch⟩ :=
      (h.writes_of_base hshort hstaged hbase).exists_patch_iff.mpr hfits
    exact ⟨⟨page, out, out⟩, Overlay.mergeBlob_eq_ok.mpr
      ⟨rfl, content, hbase, Slots.merge_eq_ok.mpr ⟨hpatch, rfl⟩⟩⟩

theorem fails_of_mergeBlob_error (hstaged : a.overlay.staged[page]? = some changes) {fault : Fault}
    (hmerged : a.overlay.mergeBlob (Slots.blobKind a.width) load (page, changes) =
      .error fault) : a.Fails load page changes fault := by
  rcases Overlay.mergeBlob_eq_error.mp hmerged with hbase | ⟨content, hbase, hmerge⟩
  · obtain ⟨hcache, ⟨reason, hload, rfl⟩ | ⟨blob, -, hread⟩⟩ := Overlay.base_eq_error.mp hbase
    · exact .out hcache hload
    · cases hread
  · obtain ⟨f, hpatch, rfl⟩ := Except.mapError_eq_error.mp (Except.map_eq_error.mp hmerge)
    exact (h.writes_of_base hshort hstaged hbase).fails_of_patch_error
      (holds_iff.mpr hbase) hpatch

end Reachable

/-- A drain succeeds exactly if every page with staged slots is at hand and long enough
for each of them, and then hands out one blob for each of these pages, in ascending
order of the keys. A drain that fails leaves the array as it was. Its fault is that of
the first page that cannot be written: the page cannot be loaded, or it has no such slot. -/
theorem drain_writes_all_or_nothing (hreach : Reachable Loader.Short config a)
    (hload : load.Short) :
    ((∃ blobs, (a.drain load).1 = .ok blobs) ↔
      ∀ (page : BlobKey) changes, a.overlay.staged[page]? = some changes →
        a.Mergeable load page changes) ∧
    (∀ blobs, (a.drain load).1 = .ok blobs →
      (∀ page, (∃ blob, (page, blob) ∈ blobs) ↔
        ∃ changes, a.overlay.staged[page]? = some changes) ∧
      blobs.Pairwise fun a b => a.1.toList < b.1.toList) ∧
    ∀ fault, (a.drain load).1 = .error fault → (a.drain load).2 = a ∧
      ∃ (page : BlobKey) (changes : Std.ExtTreeMap Nat Bytes),
        a.overlay.staged[page]? = some changes ∧ a.Fails load page changes fault ∧
        ∀ (page' : BlobKey) changes', page'.toList < page.toList →
          a.overlay.staged[page']? = some changes' → a.Mergeable load page' changes' := by
  refine ⟨?_, fun blobs h => ?_, fun fault h => ?_⟩
  · have hmerged : (∃ blobs, (a.drain load).1 = .ok blobs) ↔ _ := Overlay.exists_drain_eq_ok_iff
    rw [hmerged]
    exact forall₃_congr fun page changes hstaged => hreach.exists_mergeBlob_iff hload hstaged
  · have hordered := Overlay.pairwise_of_drain h
    exact ⟨fun page => Overlay.exists_mem_drain_iff h,
      hordered.imp BlobKey.compare_eq_lt_iff.mp⟩
  · rcases a.drain_cases load with ⟨blobs, o, -, heq⟩ | ⟨fault', hdrain, heq⟩ <;> rw [heq] at h ⊢
    · cases h
    · cases h
      obtain ⟨page, changes, hstaged, hfault, hfirst⟩ :=
        Overlay.exists_first_of_drain_error (congrArg Prod.fst hdrain)
      refine ⟨rfl, page, changes, hstaged, ?_, fun page' changes' hlt hstaged' => ?_⟩
      · exact hreach.fails_of_mergeBlob_error hload hstaged hfault
      · exact (hreach.exists_mergeBlob_iff hload hstaged').mp
          (hfirst page' changes' (BlobKey.compare_eq_lt_iff.mpr hlt) hstaged')

/-- Of two pages with staged slots the second is one byte too short, which keeps the first
from being written too; with a longer one, both are written. -/
theorem drain_writes_all_or_nothing_short_page :
    let config : PagedArray.Config := ⟨2, 2⟩
    let array : PagedArray := ⟨2, 2, .empty⟩
    let a := ((array.set 0 [1, 2]).2.set 3 [3, 4]).2
    let short : Loader := fun page => .ok (some (if page = .pack 1 then [0, 0, 0] else [0, 0, 0, 0]))
    let long : Loader := fun _ => .ok (some [0, 0, 0, 0])
    let blobs : List (BlobKey × Bytes) := [(.pack 0, [1, 2, 0, 0]), (.pack 1, [0, 0, 3, 4])]
    (Reachable Loader.Short config a ∧ short.Short ∧ long.Short) ∧
      ((a.drain short).1 = .error (.slots (.outOfRange 1 2 3)) ∧ (a.drain short).2 = a) ∧
      (a.drain long).1 = .ok blobs ∧ blobs.Pairwise fun a b => a.1.toList < b.1.toList := by
  intro config array a short long blobs
  have hreach : Reachable Loader.Short config a := .set 3 [3, 4] (.set 0 [1, 2] (.opened rfl))
  have hshort : short.Short := by
    intro page blob hblob
    cases hblob
    split <;> decide
  have hlong : long.Short := by
    intro page blob hblob
    cases hblob
    decide
  have hfails : (a.drain short).1 = .error (.slots (.outOfRange 1 2 3)) := by decide +kernel
  have hwrites : (a.drain long).1 = .ok blobs := by decide +kernel
  obtain ⟨-, -, hfailure⟩ := drain_writes_all_or_nothing hreach hshort
  obtain ⟨-, hsuccess, -⟩ := drain_writes_all_or_nothing hreach hlong
  exact ⟨⟨hreach, hshort, hlong⟩, ⟨hfails, (hfailure _ hfails).1⟩, hwrites,
    (hsuccess blobs hwrites).2⟩

end PagedArray

end ShardedRecords
