import ShardedRecords.Proofs.Wire.Words
import ShardedRecords.Wire.ReadScript

/-!
# Any sequence of reads

Whatever is read, whether it fails or not, and from whichever cursor that was kept, a script
stays in its buffer. Run with words it does the same, and no calculation of it ever fails.
-/
namespace ShardedRecords

open Reader (Composed)

variable {buf : Bytes} {c c' : Cursor}

/-! ## Steps -/

theorem Reader.Composed.map {α β : Type} {e : Encoding} {r : Reader α} (hr : Composed e r)
    (f : α → β) : Composed e (f <$> r) := by
  rw [← bind_pure_comp]
  exact hr.bind fun _ => .pure _

namespace ReadStep

/-- The read that a step makes. To keep a cursor or to go back to one is no read. -/
def reader? : ReadStep → Option (Reader Reading)
  | .take n => some (.bytes <$> .take n)
  | .u32 => some (.number <$> .littleEndian 4)
  | .u64 => some (.number <$> .littleEndian 8)
  | .base128 => some (.number <$> .base128)
  | .count e => some (.number <$> .count e)
  | .length e => some (.number <$> .length e)
  | .field e => some (.bytes <$> .field e)
  | .save => none
  | .restore => none

theorem composed {op : ReadStep} {r : Reader Reading} (h : op.reader? = some r) :
    ∃ e, Composed e r := by
  cases op <;> cases h
  case take n => exact ⟨.fixed, (Composed.take n).map _⟩
  case u32 => exact ⟨.fixed, (Composed.littleEndian .fixed 4).map _⟩
  case u64 => exact ⟨.fixed, (Composed.littleEndian .fixed 8).map _⟩
  case base128 => exact ⟨.varint, (Composed.base128 rfl).map _⟩
  case count e => exact ⟨e, (Composed.count e).map _⟩
  case length e => exact ⟨e, (Composed.length e).map _⟩
  case field e => exact ⟨e, (Composed.field e).map _⟩

/-- The number in a step, if there is one, is one that a word holds. -/
def HoldsWord (op : ReadStep) : Prop := ∀ n, op = .take n → n < UInt64.size

end ReadStep

/-- From the one cursor reads lead to the other, whether they fail or not. -/
inductive Cursor.Leads : Cursor → Cursor → Prop
  | refl (c : Cursor) : Leads c c
  | read {c c' : Cursor} {op : ReadStep} {r : Reader Reading} :
      Leads c c' → op.reader? = some r → Leads c (c'.read r).2

theorem Cursor.Leads.within (h : c.Leads c') (hc : c.Within buf) :
    c'.Within buf ∧ c.pos ≤ c'.pos := by
  induction h with
  | refl => exact ⟨hc, le_rfl⟩
  | read _ hop ih =>
    obtain ⟨e, hr⟩ := ReadStep.composed hop
    obtain ⟨hwithin, hle⟩ := hr.advances.within ih.1
    exact ⟨hwithin, ih.2.trans hle⟩

/-! ## Scripts -/

namespace ReadState

theorem step_of_reader? {op : ReadStep} {r : Reader Reading} (h : op.reader? = some r)
    (s : ReadState) : s.step op = s.read r := by
  cases op <;> cases h <;> rfl

/-- Steps lead to where reads do. -/
theorem leads_step {s : ReadState} (hcursor : c.Leads s.cursor) (hsaved : c.Leads s.saved)
    (op : ReadStep) : c.Leads (s.step op).2.cursor ∧ c.Leads (s.step op).2.saved := by
  cases hop : op.reader? with
  | some r =>
    rw [step_of_reader? hop]
    exact ⟨hcursor.read hop, hsaved⟩
  | none =>
    cases op with
    | save => exact ⟨hcursor, hcursor⟩
    | restore => exact ⟨hsaved, hsaved⟩
    | _ => cases hop

theorem leads_run {s : ReadState} (hcursor : c.Leads s.cursor) (hsaved : c.Leads s.saved)
    (script : List ReadStep) :
    ∀ after ∈ s.run script, c.Leads after.2.cursor ∧ c.Leads after.2.saved := by
  induction script generalizing s with
  | nil => simp [run]
  | cons op script ih =>
    obtain ⟨hcursor', hsaved'⟩ := leads_step hcursor hsaved op
    rw [run, List.forall_mem_cons]
    exact ⟨⟨hcursor', hsaved'⟩, ih hcursor' hsaved'⟩

end ReadState

/-! ## Scripts on words -/

structure WordState where
  cursor : UInt64
  saved : UInt64

namespace WordState

open WordReader

def read? (buf : Bytes) (s : WordState) (w : WordReader Reading) :
    Option (Except WireError Reading × WordState) := do
  let (answer, cursor) ← w buf s.cursor
  return (answer, { s with cursor })

def step? (buf : Bytes) (s : WordState) :
    ReadStep → Option (Except WireError Reading × WordState)
  | .take n => s.read? buf (map? .bytes (take? n))
  | .u32 => s.read? buf (map? .number (littleEndian? 4))
  | .u64 => s.read? buf (map? .number (littleEndian? 8))
  | .base128 => s.read? buf (map? .number Base128.Words.read?)
  | .count e => s.read? buf (map? .number (count? e))
  | .length e => s.read? buf (map? .number (length? e))
  | .field e => s.read? buf (map? .bytes (field? e))
  | .save => some (.ok .nothing, { s with saved := s.cursor })
  | .restore => some (.ok .nothing, { s with cursor := s.saved })

def run? (buf : Bytes) (s : WordState) :
    List ReadStep → Option (List (Except WireError Reading × WordState))
  | [] => some []
  | op :: script => do
    let after ← s.step? buf op
    let rest ← run? buf after.2 script
    return after :: rest

end WordState

namespace ReadState

open WordReader

/-- The positions of both cursors as words. -/
def words (s : ReadState) : WordState := ⟨.ofNat s.cursor.pos, .ofNat s.saved.pos⟩

theorem words_read {s : ReadState} {w : WordReader Reading} {r : Reader Reading}
    (hw : Computes w r) (hbuf : buf.length < 2 ^ 63) (hs : s.cursor.Within buf) :
    s.words.read? buf w = some ((s.read r).1, (s.read r).2.words) := by
  rw [WordState.read?, words, hw buf s.cursor hbuf hs]
  rfl

theorem words_step {s : ReadState} {op : ReadStep} (hbuf : buf.length < 2 ^ 63)
    (hs : s.cursor.Within buf) (hop : op.HoldsWord) :
    s.words.step? buf op = some ((s.step op).1, (s.step op).2.words) := by
  cases op with
  | take n => exact words_read ((Computes.take (hop n rfl)).map _) hbuf hs
  | u32 => exact words_read ((Computes.littleEndian (by decide)).map _) hbuf hs
  | u64 => exact words_read ((Computes.littleEndian (by decide)).map _) hbuf hs
  | base128 => exact words_read (Computes.base128.map _) hbuf hs
  | count e => exact words_read ((Computes.count e).map _) hbuf hs
  | length e => exact words_read ((Computes.length e).map _) hbuf hs
  | field e => exact words_read ((Computes.field e).map _) hbuf hs
  | save => rfl
  | restore => rfl

/-- From where reads lead to from the start, a script does the same with words. -/
theorem words_run {s : ReadState} {script : List ReadStep} (hbuf : buf.length < 2 ^ 63)
    (hcursor : (Cursor.ofBytes buf).Leads s.cursor) (hsaved : (Cursor.ofBytes buf).Leads s.saved)
    (hscript : ∀ op ∈ script, op.HoldsWord) :
    s.words.run? buf script = some ((s.run script).map fun after => (after.1, after.2.words)) := by
  induction script generalizing s with
  | nil => rfl
  | cons op script ih =>
    rw [List.forall_mem_cons] at hscript
    obtain ⟨hcursor', hsaved'⟩ := leads_step hcursor hsaved op
    have hwithin := (hcursor.within (Cursor.within_ofBytes buf)).1
    have hstep := words_step hbuf hwithin hscript.1
    have hrest := ih hcursor' hsaved' hscript.2
    rw [WordState.run?, hstep, Option.bind_eq_bind, Option.bind_some, hrest]
    rfl

end ReadState

/-! ## All reads -/

/-- Wherever reads lead to, the cursor has not gone back and is in the buffer. A failed read of
bytes or of a fixed width does not move, one that is cut off in base 128 has come to the end,
and a field of which bytes are missing has taken its length. Each read is the read of what
is left as a buffer of its own, up to the offsets. A script comes to cursors that reads lead
to, and with words it does the same: a difference in it is never negative, a slice never
outside the buffer. -/
theorem reads_stay_in_buffer :
    (∀ buf c, (Cursor.ofBytes buf).Leads c →
      c.pos ≤ buf.length ∧ c.pos + c.remaining = buf.length ∧
        ∀ c', c.Leads c' → c.pos ≤ c'.pos ∧ c'.pos ≤ buf.length) ∧
    ((∀ n, (Reader.take n).Stays) ∧ (∀ width, (Reader.littleEndian width).Stays) ∧
      (Reader.count .fixed).Stays ∧ (Reader.length .fixed).Stays) ∧
    (∀ buf c, (Cursor.ofBytes buf).Leads c →
      ∀ r ∈ [Reader.base128, Reader.count .varint, Reader.length .varint],
        Truncated (c.read r).1 → (c.read r).2.pos = buf.length) ∧
    (∀ e (c c' : Cursor) n, c.read (Reader.length e) = (.ok n, c') → c'.remaining < n →
      c.read (Reader.field e) = (.error (.truncated c'.pos n c'.remaining), c')) ∧
    (∀ buf c op r, (Cursor.ofBytes buf).Leads c → ReadStep.reader? op = some r →
      c.read r = (((Cursor.ofBytes (buf.drop c.pos)).read r).1.mapError (·.shift c.pos),
        ((Cursor.ofBytes (buf.drop c.pos)).read r).2.shift c.pos)) ∧
    (∀ buf script, ∀ after ∈ (ReadState.ofBytes buf).run script,
      (Cursor.ofBytes buf).Leads after.2.cursor ∧ (Cursor.ofBytes buf).Leads after.2.saved) ∧
    (∀ buf c, buf.length < 2 ^ 63 → (Cursor.ofBytes buf).Leads c →
      WordReader.remaining? buf (.ofNat c.pos) = some (.ofNat c.remaining) ∧
        (UInt64.ofNat c.pos).toNat = c.pos ∧ (UInt64.ofNat c.remaining).toNat = c.remaining) ∧
    ∀ buf script, buf.length < 2 ^ 63 → (∀ op ∈ script, ReadStep.HoldsWord op) →
      (ReadState.ofBytes buf).words.run? buf script =
        some (((ReadState.ofBytes buf).run script).map fun after => (after.1, after.2.words)) := by
  have hwithin : ∀ {buf c}, (Cursor.ofBytes buf).Leads c → c.Within buf :=
    fun {buf} _ h => (h.within (Cursor.within_ofBytes buf)).1
  refine ⟨?_, ?_, ?_, fun _ _ _ _ => Reader.read_field_of_missing, ?_, ?_, ?_, ?_⟩
  · intro buf c h
    refine ⟨(hwithin h).pos_le, (hwithin h).pos_add_remaining, fun c' h' => ?_⟩
    obtain ⟨hc', hle⟩ := h'.within (hwithin h)
    exact ⟨hle, hc'.pos_le⟩
  · exact ⟨.take, .littleEndian, .littleEndian 8, .littleEndian 4⟩
  · intro buf c h r hr htruncated
    have hbase : r = Reader.base128 := by
      rcases List.mem_cons.mp hr with rfl | hr
      · rfl
      · rcases List.mem_pair.mp hr with rfl | rfl <;> rfl
    subst hbase
    rw [Reader.read_base128_of_truncated htruncated]
    exact (hwithin h).pos_add_remaining
  · intro buf c op r h hop
    obtain ⟨e, hr⟩ := ReadStep.composed hop
    exact hr.shifts.read_eq (hwithin h)
  · intro buf script
    exact ReadState.leads_run (.refl _) (.refl _) script
  · intro buf c hbuf h
    obtain ⟨hremaining, hremainingNat⟩ := WordReader.remaining?_eq hbuf (hwithin h)
    exact ⟨hremaining, WordReader.toNat_pos hbuf (hwithin h), hremainingNat⟩
  · intro buf script hbuf hscript
    exact ReadState.words_run hbuf (.refl _) (.refl _) hscript

/-- A field of five bytes of which two are there, and the last of them has no successor. -/
theorem reads_stay_in_buffer_cut_short :
    let buf : Bytes := [5, 1, 0x80]
    let behind : Cursor := ⟨1, [1, 0x80]⟩
    let script : List ReadStep :=
      [.save, .field .varint, .take (2 ^ 64 - 1), .base128, .base128, .restore, .u32]
    ((Cursor.ofBytes buf).Leads behind ∧ behind.pos + behind.remaining = 3) ∧
      (Cursor.ofBytes buf).read (.field .varint) = (.error (.truncated 1 5 2), behind) ∧
      (behind.read (.take (2 ^ 64 - 1))).2 = behind ∧
      behind.read (Reading.bytes <$> Reader.take 4) = (.error (.truncated 1 4 2), behind) ∧
      ((⟨2, [0x80]⟩ : Cursor).read .base128).2.pos = 3 ∧
      WordReader.remaining? buf 1 = some 2 ∧
      ((⟨0, 0⟩ : WordState).run? buf script).map
        (fun answers => answers.map fun after => after.2.cursor.toNat) =
          some [0, 1, 1, 2, 3, 0, 0] := by
  intro buf behind script
  obtain ⟨hin, hstays, hend, hfield, hshift, -, hremaining, hwords⟩ := reads_stay_in_buffer
  have hbehind : (Cursor.ofBytes buf).Leads behind :=
    .read (.refl _) (show ReadStep.reader? (.field .varint) = some _ from rfl)
  have hlast : (Cursor.ofBytes buf).Leads ⟨2, [0x80]⟩ :=
    hbehind.read (show ReadStep.reader? .base128 = some _ from rfl)
  refine ⟨⟨hbehind, (hin _ _ hbehind).2.1⟩, ?_, ?_, ?_, ?_, ?_, ?_⟩
  · exact hfield .varint _ behind 5 rfl (by decide)
  · exact hstays.1 _ behind (.truncated 1 (2 ^ 64 - 1) 2) rfl
  · rw [hshift buf behind (.take 4) _ hbehind rfl]
    rfl
  · exact hend buf _ hlast _ (List.mem_cons_self ..) ⟨2, 2, 1, rfl⟩
  · exact (hremaining buf behind (by decide) hbehind).1
  · have hscript : ∀ op ∈ script, ReadStep.HoldsWord op := by
      intro op hop n heq
      subst heq
      simp [script] at hop
      subst hop
      decide
    have hrun := hwords buf script (by decide) hscript
    rw [show (⟨0, 0⟩ : WordState) = (ReadState.ofBytes buf).words from rfl, hrun]
    decide +kernel

end ShardedRecords
