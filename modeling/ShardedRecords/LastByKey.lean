import Std.Data.ExtTreeMap

/-!
# The last value of each key

A list of pairs read as successive writes keeps, of each key, the value written
last. The result is in ascending order of the keys.
-/
namespace ShardedRecords

variable {κ α : Type} [Ord κ] [Std.TransOrd κ]

def lastByKeyMap (pairs : List (κ × α)) : Std.ExtTreeMap κ α :=
  pairs.foldl (fun m pair => m.insert pair.1 pair.2) ∅

def lastByKey (pairs : List (κ × α)) : List (κ × α) := (lastByKeyMap pairs).toList

theorem pairwise_lastByKey (pairs : List (κ × α)) :
    (lastByKey pairs).Pairwise fun a b => compare a.1 b.1 = .lt :=
  Std.ExtTreeMap.ordered_keys_toList

end ShardedRecords
