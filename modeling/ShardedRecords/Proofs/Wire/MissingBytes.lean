import Mathlib.Data.Prod.Lex
import ShardedRecords.Proofs.Wire.Streams

/-!
# Reports of missing bytes

Decoding that runs out of bytes says from which offset on it needs how many. Whoever waits for
the buffer to grow can rely on it: the same bytes are asked for until they are there, and what
is asked for then is further on.
-/
namespace ShardedRecords

variable {α β σ : Type}

namespace Cursor

/-- The offset behind the last byte of the buffer. -/
def stop (c : Cursor) : Nat := c.pos + c.remaining

/-- The same place in a buffer that goes on. -/
def grow (c : Cursor) (more : Bytes) : Cursor := ⟨c.pos, c.rest ++ more⟩

variable (c : Cursor) (more buf : Bytes)

@[simp] theorem pos_grow : (c.grow more).pos = c.pos := rfl

@[simp] theorem remaining_grow : (c.grow more).remaining = c.remaining + more.length :=
  List.length_append

@[simp] theorem stop_grow : (c.grow more).stop = c.stop + more.length := by
  simp [stop, Nat.add_assoc]

theorem grow_ofBytes : (ofBytes buf).grow more = ofBytes (buf ++ more) := rfl

@[simp] theorem stop_ofBytes : (ofBytes buf).stop = buf.length := by
  simp [stop, remaining, ofBytes]

end Cursor

namespace Reader

variable {r : Reader α} {f : α → Reader β} {c c' : Cursor} {a : α} {offset needed : Nat}

/-! ## Reads in a buffer that grows -/

namespace Incremental

theorem read_grow (hr : r.Incremental) (h : c.read r = (.ok a, c')) (more : Bytes) :
    (c.grow more).read r = (.ok a, c'.grow more) := by
  obtain ⟨front, hrest, hpos, hsettles⟩ := hr.exists_settles_of_read h
  simpa [Cursor.grow, hrest, hpos] using hsettles c.pos (c'.rest ++ more)

/-- A read moves forward in its buffer. -/
theorem pos_le_of_read (hr : r.Incremental) (h : c.read r = (.ok a, c')) :
    c.pos ≤ c'.pos ∧ c'.stop = c.stop := by
  obtain ⟨front, hrest, hpos, -⟩ := hr.exists_settles_of_read h
  simp only [Cursor.stop, Cursor.remaining, hrest, hpos, List.length_append]
  omega

/-- A read that had run out of bytes takes some of those that have come. -/
theorem stop_lt_of_read_grow (hr : r.Incremental) (h : Truncated (c.read r).1) {more : Bytes}
    (hread : (c.grow more).read r = (.ok a, c')) : c.stop < c'.pos := by
  obtain ⟨front, hrest, hpos, hsettles⟩ := hr.exists_settles_of_read hread
  by_contra hle
  have hlength : front.length ≤ c.rest.length := by
    simp only [Cursor.stop, Cursor.remaining, hpos, Cursor.pos_grow] at hle
    omega
  have hfront : front <+: c.rest ++ more := ⟨c'.rest, hrest.symm⟩
  obtain ⟨back, hback⟩ :=
    List.prefix_of_prefix_length_le hfront (List.prefix_append c.rest more) hlength
  have hbefore : c.read r = (.ok a, ⟨c.pos + front.length, back⟩) := by
    simpa [hback] using hsettles c.pos back
  rw [hbefore] at h
  exact not_truncated_ok a h

end Incremental

/-! ## Reports -/

/-- The read runs out of bytes: from `offset` on it needs more than there are. -/
structure Lacks (r : Reader α) (c : Cursor) (offset needed : Nat) : Prop where
  read_eq : (c.read r).1 = .error (.truncated offset needed (c.stop - offset))
  pos_le : c.pos ≤ offset
  le_stop : offset ≤ c.stop
  stop_lt : c.stop < offset + needed

theorem Lacks.truncated (h : r.Lacks c offset needed) : Truncated (c.read r).1 :=
  ⟨_, _, _, h.read_eq⟩

theorem Lacks.not_ok (h : r.Lacks c offset needed) : c.read r ≠ (.ok a, c') := by
  intro hread
  have htruncated := h.truncated
  rw [hread] at htruncated
  exact not_truncated_ok a htruncated

/-- What is said about missing bytes is so. It stays the same until the buffer reaches as far
as was asked for, and what is said then, if bytes are missing again, is about a later offset
or about more bytes. -/
structure Reports (r : Reader α) : Prop where
  lacks : ∀ {c offset needed remaining},
    (c.read r).1 = .error (.truncated offset needed remaining) → r.Lacks c offset needed
  waits : ∀ {c offset needed} (more : Bytes), r.Lacks c offset needed →
    (c.grow more).stop < offset + needed → r.Lacks (c.grow more) offset needed
  advances : ∀ {c offset needed more offset' needed'}, r.Lacks c offset needed →
    offset + needed ≤ (c.grow more).stop → r.Lacks (c.grow more) offset' needed' →
      toLex (offset, needed) < toLex (offset', needed')

theorem lacks_bind_iff (hr : r.Incremental) (hf : ∀ a, (f a).Reports) :
    (r >>= f).Lacks c offset needed ↔ r.Lacks c offset needed ∨
      ∃ a c', c.read r = (.ok a, c') ∧ (f a).Lacks c' offset needed := by
  constructor
  · intro h
    rcases Cursor.read_bind_eq_error.mp h.read_eq with hfirst | ⟨a, c', hfirst, hsecond⟩
    · exact .inl ⟨hfirst, h.pos_le, h.le_stop, h.stop_lt⟩
    · exact .inr ⟨a, c', hfirst, (hf a).lacks hsecond⟩
  · rintro (h | ⟨a, c', hfirst, h⟩)
    · exact ⟨Cursor.read_bind_eq_error.mpr (.inl h.read_eq), h.pos_le, h.le_stop, h.stop_lt⟩
    · obtain ⟨hpos, hstop⟩ := hr.pos_le_of_read hfirst
      have hsecond := hstop ▸ h.read_eq
      exact ⟨Cursor.read_bind_eq_error.mpr (.inr ⟨a, c', hfirst, hsecond⟩), hpos.trans h.pos_le,
        hstop ▸ h.le_stop, hstop ▸ h.stop_lt⟩

theorem lacks_take {n : Nat} (h : c.remaining < n) : (take n).Lacks c c.pos n := by
  have hcut : Bytes.cut? n c.rest = none := Bytes.cut?_eq_none_iff.mpr h
  constructor
  · simp [Cursor.read_take, hcut, Cursor.stop]
  · exact le_rfl
  · exact Nat.le_add_right ..
  · exact Nat.add_lt_add_left h _

theorem of_take_truncated {n remaining : Nat}
    (h : (c.read (take n)).1 = .error (.truncated offset needed remaining)) :
    offset = c.pos ∧ needed = n ∧ c.remaining < n := by
  rw [Cursor.read_take] at h
  split at h
  · cases h
  · rename_i hcut
    cases h
    exact ⟨rfl, rfl, Bytes.cut?_eq_none_iff.mp hcut⟩

theorem lacks_base128 (h : (Base128.scan c.rest).outcome = .cut) :
    base128.Lacks c c.pos (c.remaining + 1) := by
  constructor
  · simp [Cursor.read_base128, h, Cursor.stop]
  · exact le_rfl
  · exact Nat.le_add_right ..
  · exact Nat.lt_succ_self _

theorem of_base128_truncated {remaining : Nat}
    (h : (c.read base128).1 = .error (.truncated offset needed remaining)) :
    offset = c.pos ∧ needed = c.remaining + 1 ∧ (Base128.scan c.rest).outcome = .cut := by
  rw [Cursor.read_base128] at h
  split at h
  · cases h
  · cases h
  · rename_i hcut
    cases h
    exact ⟨rfl, rfl, hcut⟩

namespace Reports

theorem pure (a : α) : Reports (Pure.pure a) where
  lacks h := nomatch h
  waits _ h := nomatch h.read_eq
  advances h := nomatch h.read_eq

theorem bind (hinc : r.Incremental) (hr : r.Reports) (hf : ∀ a, (f a).Reports) :
    (r >>= f).Reports := by
  constructor
  · intro c offset needed remaining h
    rw [lacks_bind_iff hinc hf]
    rcases Cursor.read_bind_eq_error.mp h with hfirst | ⟨a, c', hfirst, hsecond⟩
    · exact .inl (hr.lacks hfirst)
    · exact .inr ⟨a, c', hfirst, (hf a).lacks hsecond⟩
  · intro c offset needed more h hlt
    rw [lacks_bind_iff hinc hf] at h ⊢
    rcases h with h | ⟨a, c', hfirst, h⟩
    · exact .inl (hr.waits more h hlt)
    · obtain ⟨-, hstop⟩ := hinc.pos_le_of_read hfirst
      have hlt' : (c'.grow more).stop < offset + needed := by simpa [hstop] using hlt
      exact .inr ⟨a, c'.grow more, hinc.read_grow hfirst more, (hf a).waits more h hlt'⟩
  · intro c offset needed more offset' needed' h hle h'
    rw [lacks_bind_iff hinc hf] at h h'
    rcases h with h | ⟨a, c', hfirst, h⟩
    · rcases h' with h' | ⟨a, c', hfirst, h'⟩
      · exact hr.advances h hle h'
      · -- The first read got all that it lacked, so the second one begins behind the old end.
        have hoffset : offset < offset' := calc
          offset ≤ c.stop := h.le_stop
          _ < c'.pos := hinc.stop_lt_of_read_grow h.truncated hfirst
          _ ≤ offset' := h'.pos_le
        exact Prod.Lex.toLex_lt_toLex.mpr (.inl hoffset)
    · obtain ⟨-, hstop⟩ := hinc.pos_le_of_read hfirst
      have hgrown := hinc.read_grow hfirst more
      have hle' : offset + needed ≤ (c'.grow more).stop := by simpa [hstop] using hle
      rcases h' with h' | ⟨a', c'', hfirst', h'⟩
      · exact absurd hgrown h'.not_ok
      · obtain ⟨ha, hc⟩ := Prod.mk.inj (hgrown.symm.trans hfirst')
        cases ha
        subst hc
        exact (hf a).advances h hle' h'

theorem take (n : Nat) : (Reader.take n).Reports := by
  constructor
  · intro c offset needed remaining h
    obtain ⟨rfl, rfl, hlt⟩ := of_take_truncated h
    exact lacks_take hlt
  · intro c offset needed more h hlt
    obtain ⟨rfl, rfl, -⟩ := of_take_truncated h.read_eq
    exact lacks_take (Nat.lt_of_add_lt_add_left hlt)
  · intro c offset needed more offset' needed' h hle h'
    obtain ⟨rfl, rfl, -⟩ := of_take_truncated h.read_eq
    obtain ⟨-, -, hlt⟩ := of_take_truncated h'.read_eq
    exact absurd hlt (Nat.not_lt.mpr (Nat.le_of_add_le_add_left hle))

/-- A number asks for one byte at a time, at the same offset. -/
theorem base128 : Reader.base128.Reports := by
  constructor
  · intro c offset needed remaining h
    obtain ⟨rfl, rfl, hcut⟩ := of_base128_truncated h
    exact lacks_base128 hcut
  · intro c offset needed more h hlt
    obtain ⟨rfl, rfl, -⟩ := of_base128_truncated h.read_eq
    have hmore : more = [] := by
      rw [Cursor.stop_grow, Cursor.stop] at hlt
      exact List.eq_nil_of_length_eq_zero (by omega)
    simpa [hmore, Cursor.grow] using h
  · intro c offset needed more offset' needed' h hle h'
    obtain ⟨rfl, rfl, -⟩ := of_base128_truncated h.read_eq
    obtain ⟨rfl, rfl, -⟩ := of_base128_truncated h'.read_eq
    have hneeded : c.remaining + 1 < (c.grow more).remaining + 1 := by
      rw [Cursor.stop_grow, Cursor.stop] at hle
      rw [Cursor.remaining_grow]
      omega
    exact Prod.Lex.toLex_lt_toLex.mpr (.inr ⟨rfl, hneeded⟩)

end Reports

theorem Composed.reports {e : Encoding} (h : Composed e r) : r.Reports := by
  induction h with
  | pure a => exact .pure a
  | bind h _ hr hf => exact .bind h.incremental hr hf
  | take n => exact .take n
  | base128 => exact .base128

end Reader

/-! ## Decoding -/

/-- Into whatever container is decoded, a report of missing bytes has an offset in the buffer,
the number of bytes from there on, and a greater number that is needed. With some of the
missing bytes the report is the same but for those that have come. Once they are all there,
decoding no longer runs out, or it needs more bytes at the same offset, or bytes further on. -/
theorem missing_bytes_reported_in_order [Sink σ] {e : Encoding} {buf : Bytes}
    {offset needed remaining : Nat}
    (h : decodeInto σ e buf = .error (.truncated offset needed remaining)) :
    (offset ≤ buf.length ∧ remaining = buf.length - offset ∧ remaining < needed) ∧
    ∀ more : Bytes,
      (more.length < needed - remaining → decodeInto σ e (buf ++ more) =
        .error (.truncated offset needed (remaining + more.length))) ∧
      (needed - remaining ≤ more.length → ∀ offset' needed' remaining',
        decodeInto σ e (buf ++ more) = .error (.truncated offset' needed' remaining') →
          toLex (offset, needed) < toLex (offset', needed')) := by
  simp only [decodeInto_eq_error_iff, ← Cursor.grow_ofBytes] at h ⊢
  have hreports := (Reader.Composed.message e).reports
  have hlacks := hreports.lacks h
  have hremaining : remaining = buf.length - offset := by
    simpa [h] using hlacks.read_eq
  have hle : offset ≤ buf.length := by simpa using hlacks.le_stop
  have hlt : buf.length < offset + needed := by simpa using hlacks.stop_lt
  constructor
  · exact ⟨hle, hremaining, by omega⟩
  · intro more
    have hstop : ((Cursor.ofBytes buf).grow more).stop = buf.length + more.length := by simp
    constructor
    · intro hmore
      have hwaits := (hreports.waits more hlacks (by omega)).read_eq
      have hsame : buf.length + more.length - offset = remaining + more.length := by omega
      rwa [hstop, hsame] at hwaits
    · intro hmore offset' needed' remaining' h'
      exact hreports.advances hlacks (by omega) (hreports.lacks h')

/-- Of a key of three bytes there is one. With the second one two are there, and with the third
the length of the value is missing, which stands behind the key. -/
theorem missing_bytes_reported_in_order_key :
    Table.decode .varint [1, 3, 97] = .error (.truncated 2 3 1) ∧
      Table.decode .varint ([1, 3, 97] ++ [98]) = .error (.truncated 2 3 2) ∧
      Table.decode .varint ([1, 3, 97] ++ [98, 99]) = .error (.truncated 5 1 0) ∧
      toLex (2, 3) < toLex (5, 1) := by
  have h : Table.decode .varint [1, 3, 97] = .error (.truncated 2 3 1) :=
    decodeInto_eq_error_iff.mpr (by decide +kernel)
  have h' : Table.decode .varint ([1, 3, 97] ++ [98, 99]) = .error (.truncated 5 1 0) :=
    decodeInto_eq_error_iff.mpr (by decide +kernel)
  obtain ⟨-, hmore⟩ := missing_bytes_reported_in_order (σ := Table) h
  exact ⟨h, (hmore [98]).1 (by decide), h', (hmore [98, 99]).2 (by decide) 5 1 0 h'⟩

end ShardedRecords
