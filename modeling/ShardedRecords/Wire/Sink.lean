import ShardedRecords.Wire.RecordStream

/-!
# Reading into a container

The records of a message go into a container of the caller's choice, one after
the other. It is asked for no more room than the unread bytes can fill, whatever
the message declares.
-/
namespace ShardedRecords

/-- Containers that can be made with room for some bindings, and filled. -/
class Sink (σ : Type) where
  withCapacity : Nat → σ
  insert : σ → Bytes → Bytes → σ

/-- Containers in which an inserted key is bound to its value, and to nothing
that it was bound to before. -/
class LawfulSink (σ : Type) extends Sink σ where
  lookup : σ → Bytes → Option Bytes
  lookup_withCapacity (n : Nat) (key : Bytes) : lookup (withCapacity n) key = none
  lookup_insert (sink : σ) (key value key' : Bytes) :
    lookup (insert sink key value) key' = if key = key' then some value else lookup sink key'

variable {σ : Type} [Sink σ]

/-- Inserts the records that are still to come. A record that fails fails the
whole, so that no part of a message is ever handed out. -/
def RecordStream.insertInto (s : RecordStream) (sink : σ) : Except WireError σ :=
  match _ : s.next with
  | (none, _) => .ok sink
  | (some (.ok r), s') => s'.insertInto (Sink.insert sink r.key r.value)
  | (some (.error f), _) => .error f
termination_by s.left
decreasing_by exact left_lt_of_next ‹_›

/-- Of two records with one key the later stays. -/
def decodeInto (σ : Type) [Sink σ] (e : Encoding) (buf : Bytes) : Except WireError σ := do
  let s ← RecordStream.ofBytes e buf
  s.insertInto (Sink.withCapacity s.bound)

end ShardedRecords
