import ShardedRecords.Proofs.Answers
import ShardedRecords.Proofs.Wire.Readers
import ShardedRecords.Wire.Table

/-!
# Streams of records

A message can be read at once, record by record, or into a container. If it can
be read at once, the stream yields the same records one after the other, ends
with the same cursor and stays there; a container holds the last value of each
key in both cases.
-/
namespace ShardedRecords

variable {α β σ : Type}

theorem Cursor.read_bind_eq_ok {c c' : Cursor} {r : Reader α} {f : α → Reader β} {b : β} :
    c.read (r >>= f) = (.ok b, c') ↔
      ∃ a c₁, c.read r = (.ok a, c₁) ∧ c₁.read (f a) = (.ok b, c') := by
  rw [read_bind]
  rcases c.read r with ⟨fault | a, c₁⟩ <;> simp [and_assoc]

theorem Cursor.read_bind_eq_error {c : Cursor} {r : Reader α} {f : α → Reader β}
    {fault : WireError} : (c.read (r >>= f)).1 = .error fault ↔
      (c.read r).1 = .error fault ∨
        ∃ a c', c.read r = (.ok a, c') ∧ (c'.read (f a)).1 = .error fault := by
  rw [read_bind]
  rcases c.read r with ⟨fault' | a, c'⟩ <;> simp

theorem Cursor.read_records_succ {c c' : Cursor} {e : Encoding} {n : Nat} {rs : List Record}
    (h : c.read (.records e (n + 1)) = (.ok rs, c')) :
    ∃ r c₁ rs', c.read (.record e) = (.ok r, c₁) ∧ c₁.read (.records e n) = (.ok rs', c') ∧
      rs = r :: rs' := by
  obtain ⟨r, c₁, hr, h⟩ := read_bind_eq_ok.mp h
  obtain ⟨rs', c₂, hrs, h⟩ := read_bind_eq_ok.mp h
  cases h
  exact ⟨r, c₁, rs', hr, hrs, rfl⟩

namespace RecordStream

/-- The stream behind the first `n` calls. -/
def skip (s : RecordStream) : Nat → RecordStream
  | 0 => s
  | n + 1 => s.next.2.skip n

/-- What the call behind the first `i` calls answers. -/
def item (s : RecordStream) (i : Nat) : Option (Except WireError Record) := (s.skip i).next.1

theorem next_of_left_eq_zero {s : RecordStream} (h : s.left = 0) : s.next = (none, s) := by
  rw [next, h]

theorem next_of_read {s : RecordStream} {n : Nat} {r : Record} {c : Cursor} (hn : s.left = n + 1)
    (h : s.cursor.read (.record s.encoding) = (.ok r, c)) :
    s.next = (some (.ok r), { s with left := n, cursor := c }) := by
  rw [next, hn]
  simp only [h]

theorem skip_of_left_eq_zero {s : RecordStream} (h : s.left = 0) (n : Nat) : s.skip n = s := by
  induction n with
  | zero => rfl
  | succ n ih => rw [skip, next_of_left_eq_zero h, ih]

theorem item_succ (s : RecordStream) (i : Nat) : s.item (i + 1) = s.next.2.item i := rfl

theorem item_of_left_eq_zero {s : RecordStream} (h : s.left = 0) (i : Nat) : s.item i = none := by
  rw [item, skip_of_left_eq_zero h, next_of_left_eq_zero h]

theorem next_of_read_error {s : RecordStream} {n : Nat} {fault : WireError} {c : Cursor}
    (hn : s.left = n + 1) (h : s.cursor.read (.record s.encoding) = (.error fault, c)) :
    s.next = (some (.error fault), { s with left := 0, cursor := c }) := by
  rw [next, hn]
  simp only [h]

/-! ## What one call did -/

section Inversion

variable {s s' : RecordStream} {r : Record} {fault : WireError}

theorem left_of_next_none (h : s.next = (none, s')) : s.left = 0 := by
  unfold next at h
  split at h
  · assumption
  · split at h <;> cases h

/-- A record is read from the bytes that are left, and one less is left to come. -/
theorem read_of_next_record (h : s.next = (some (.ok r), s')) :
    s.left = s'.left + 1 ∧ s'.encoding = s.encoding ∧
      s.cursor.read (.record s.encoding) = (.ok r, s'.cursor) := by
  unfold next at h
  split at h
  · cases h
  · rename_i left hleft
    split at h
    · rename_i hread
      cases h
      exact ⟨hleft, rfl, hread⟩
    · cases h

/-- After a fault nothing is left to come. -/
theorem read_of_next_fault (h : s.next = (some (.error fault), s')) :
    0 < s.left ∧ s'.left = 0 ∧
      s.cursor.read (.record s.encoding) = (.error fault, s'.cursor) := by
  unfold next at h
  split at h
  · cases h
  · rename_i left hleft
    split at h
    · cases h
    · rename_i hread
      cases h
      exact ⟨hleft ▸ Nat.succ_pos left, rfl, hread⟩

/-- A stream has ended, or yields a record and goes on, or yields a fault and ends. -/
@[elab_as_elim]
theorem induction {motive : RecordStream → Prop}
    (ended : ∀ s, s.left = 0 → motive s)
    (record : ∀ s s' r, s.next = (some (.ok r), s') → motive s' → motive s)
    (fault : ∀ s s' f, s.next = (some (.error f), s') → motive s)
    (s : RecordStream) : motive s := by
  induction hn : s.left generalizing s with
  | zero => exact ended s hn
  | succ n ih =>
    rcases hnext : s.next with ⟨_ | f | r, s'⟩
    · have hleft := left_of_next_none hnext
      omega
    · exact fault s s' f hnext
    · have hleft := (read_of_next_record hnext).1
      exact record s s' r hnext (ih s' (by omega))

end Inversion

/-! ## What all calls answer -/

/-- Where the stream ends is where the records end when they are read at once, be
it with a fault. -/
theorem skip_of_left_le {s : RecordStream} {i : Nat} (hi : s.left ≤ i) : s.skip i =
    { s with left := 0, cursor := (s.cursor.read (.records s.encoding s.left)).2 } := by
  induction hn : s.left generalizing s i with
  | zero =>
    rw [skip_of_left_eq_zero hn, Reader.records, Cursor.read_pure, ← hn]
  | succ n ih =>
    obtain ⟨i, rfl⟩ : ∃ j, i = j + 1 := ⟨i - 1, by omega⟩
    rw [skip, Reader.records, Cursor.read_bind]
    rcases hr : s.cursor.read (.record s.encoding) with ⟨fault | r, c⟩
    · rw [next_of_read_error hn hr, skip_of_left_eq_zero rfl]
    · rw [next_of_read hn hr, ih (by simp only; omega) rfl]
      simp only [Cursor.read_bind]
      rcases c.read (.records s.encoding n) with ⟨fault | rs, c'⟩ <;> rfl

theorem item_of_read_records {s : RecordStream} {rs : List Record} {c : Cursor}
    (h : s.cursor.read (.records s.encoding s.left) = (.ok rs, c)) (i : Nat) :
    s.item i = rs[i]?.map .ok := by
  induction hn : s.left generalizing s rs i with
  | zero =>
    rw [hn] at h
    cases h
    exact item_of_left_eq_zero hn i
  | succ n ih =>
    rw [hn] at h
    obtain ⟨r, c₁, rs', hr, hrs, rfl⟩ := Cursor.read_records_succ h
    cases i with
    | zero =>
      rw [item, skip, next_of_read hn hr]
      rfl
    | succ i =>
      rw [item_succ, next_of_read hn hr, List.getElem?_cons_succ]
      exact ih hrs i rfl

/-- A fault that stops the records when they are read at once takes the place of one
of them in the stream. -/
theorem exists_item_of_read_records_error {s : RecordStream} {fault : WireError} {c : Cursor}
    (h : s.cursor.read (.records s.encoding s.left) = (.error fault, c)) :
    ∃ i, s.item i = some (.error fault) := by
  induction hn : s.left generalizing s with
  | zero =>
    rw [hn] at h
    cases h
  | succ n ih =>
    rw [hn, Reader.records, Cursor.read_bind] at h
    rcases hr : s.cursor.read (.record s.encoding) with ⟨fault' | r, c₁⟩
    · rw [hr] at h
      cases h
      exact ⟨0, by rw [item, skip, next_of_read_error hn hr]⟩
    · rw [hr] at h
      simp only [Cursor.read_bind] at h
      rcases hrs : c₁.read (.records s.encoding n) with ⟨fault' | rs, c'⟩
      · rw [hrs] at h
        cases h
        obtain ⟨i, hi⟩ := ih (s := ⟨s.encoding, s.declared, n, c₁⟩) hrs rfl
        refine ⟨i + 1, ?_⟩
        rw [item_succ, next_of_read hn hr]
        exact hi
      · rw [hrs] at h
        cases h

theorem ofBytes_of_read_count {e : Encoding} {buf : Bytes} {n : Nat} {c : Cursor}
    (h : (Cursor.ofBytes buf).read (.count e) = (.ok n, c)) :
    ofBytes e buf = .ok ⟨e, n, n, c⟩ := by
  rw [ofBytes, h]

end RecordStream

/-! ## Containers -/

def Record.entry (r : Record) : Bytes × Bytes := (r.key, r.value)

def Sink.insertAll [Sink σ] (sink : σ) (rs : List Record) : σ :=
  rs.foldl (fun sink r => Sink.insert sink r.key r.value) sink

theorem RecordStream.insertInto_eq [Sink σ] (s : RecordStream) (sink : σ) : s.insertInto sink =
    (s.cursor.read (.records s.encoding s.left)).1.map (Sink.insertAll sink) := by
  induction hn : s.left generalizing s sink with
  | zero =>
    rw [insertInto, next_of_left_eq_zero hn]
    rfl
  | succ n ih =>
    have hrecords : s.cursor.read (.records s.encoding (n + 1)) = _ := Cursor.read_bind ..
    rw [hrecords, insertInto, next, hn]
    rcases s.cursor.read (.record s.encoding) with ⟨fault | r, c⟩
    · rfl
    · simp only [ih, Cursor.read_bind]
      rcases c.read (.records s.encoding n) with ⟨fault | rs, c'⟩ <;> rfl

theorem decodeInto_eq [Sink σ] (e : Encoding) (buf : Bytes) : ∃ room, decodeInto σ e buf =
    ((Cursor.ofBytes buf).read (.message e)).1.map (Sink.insertAll (Sink.withCapacity room)) := by
  have hmessage : (Cursor.ofBytes buf).read (.message e) = _ := Cursor.read_bind ..
  rw [hmessage, decodeInto, RecordStream.ofBytes]
  rcases (Cursor.ofBytes buf).read (.count e) with ⟨fault | n, c⟩
  · exact ⟨0, rfl⟩
  · exact ⟨_, RecordStream.insertInto_eq ..⟩

/-- Decoding fails as reading does, whatever is decoded into. -/
theorem decodeInto_eq_error_iff [Sink σ] {e : Encoding} {buf : Bytes} {fault : WireError} :
    decodeInto σ e buf = .error fault ↔
      ((Cursor.ofBytes buf).read (.message e)).1 = .error fault := by
  obtain ⟨_, h⟩ := decodeInto_eq (σ := σ) e buf
  rw [h, Except.map_eq_error]

theorem LawfulSink.lookup_insertAll [LawfulSink σ] (sink : σ) (rs : List Record) (key : Bytes) :
    lookup (Sink.insertAll sink rs) key =
      ((rs.map Record.entry).reverse.lookup key).or (lookup sink key) := by
  induction rs generalizing sink with
  | nil => rfl
  | cons r rs ih =>
    have hstep : Sink.insertAll sink (r :: rs) =
      Sink.insertAll (Sink.insert sink r.key r.value) rs := rfl
    rw [hstep, ih, lookup_insert, List.map_cons, List.reverse_cons, List.lookup_append,
      Option.or_assoc]
    congr 1
    by_cases hk : r.key = key
    · simp [Record.entry, hk]
    · have hne : (key == r.key) = false := by simpa using Ne.symm hk
      simp [Record.entry, List.lookup_cons, hk, hne]

namespace Table

theorem decode_eq (e : Encoding) (buf : Bytes) :
    decode e buf = ((Cursor.ofBytes buf).read (.message e)).1.map ofRecords := by
  obtain ⟨_, h⟩ := decodeInto_eq (σ := Table) e buf
  exact h

end Table

end ShardedRecords
