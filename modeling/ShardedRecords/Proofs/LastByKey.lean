import ShardedRecords.LastByKey

/-!
# Successive writes to a map

After a list of writes a key is bound to its last value in the list, and the
bindings of a map, in the order of their keys, are writes that make the map again.
-/
namespace ShardedRecords

variable {κ α : Type} [Ord κ] [Std.TransOrd κ] [Std.LawfulEqOrd κ]

/-- The bindings of a map stand in the order of their keys. -/
theorem mem_of_toList_eq_append {m : Std.ExtTreeMap κ α} {before after : List (κ × α)} {k : κ}
    {a : α} (h : m.toList = before ++ (k, a) :: after) {k' : κ} {a' : α} (hlt : compare k' k = .lt)
    (hk' : m[k']? = some a') : (k', a') ∈ before := by
  have hordered := Std.ExtTreeMap.ordered_keys_toList (t := m)
  rw [h, List.pairwise_append, List.pairwise_cons] at hordered
  have hmem := Std.ExtTreeMap.mem_toList_iff_getElem?_eq_some.mpr hk'
  rw [h, List.mem_append, List.mem_cons] at hmem
  rcases hmem with hmem | heq | hmem
  · exact hmem
  · cases heq
    simp at hlt
  · have hgt : compare k k' = .lt := hordered.2.1.1 _ hmem
    rw [Std.OrientedOrd.eq_swap, hlt] at hgt
    cases hgt

variable [BEq κ] [LawfulBEq κ]

theorem getElem?_foldl_insert (pairs : List (κ × α)) (m : Std.ExtTreeMap κ α) (k : κ) :
    (pairs.foldl (fun m pair => m.insert pair.1 pair.2) m)[k]? =
      (pairs.reverse.lookup k).or m[k]? := by
  induction pairs generalizing m with
  | nil => rfl
  | cons pair pairs ih =>
    obtain ⟨k', a⟩ := pair
    rw [List.foldl_cons, ih, List.reverse_cons, List.lookup_append, Option.or_assoc,
      Std.ExtTreeMap.getElem?_insert]
    congr 1
    by_cases hk : k' = k
    · simp [hk]
    · have hne : (k == k') = false := by simpa using Ne.symm hk
      simp [List.lookup_cons, hk, hne]

theorem getElem?_lastByKeyMap (pairs : List (κ × α)) (k : κ) :
    (lastByKeyMap pairs)[k]? = pairs.reverse.lookup k := by
  rw [lastByKeyMap, getElem?_foldl_insert, Std.ExtTreeMap.getElem?_empty, Option.or_none]

/-- The bindings of a map make the map again, in whatever order they are written. -/
theorem lastByKeyMap_of_perm {m : Std.ExtTreeMap κ α} {pairs : List (κ × α)}
    (h : pairs.Perm m.toList) : lastByKeyMap pairs = m := by
  rw [lastByKeyMap, ← Std.ExtTreeMap.ofList_eq_foldl]
  ext1 k
  cases hk : m[k]? with
  | some a =>
    have hdistinct : pairs.Pairwise fun a b => ¬compare a.1 b.1 = .eq := by
      refine h.symm.pairwise Std.ExtTreeMap.distinct_keys_toList ?_
      intro a b hab hba
      exact hab (Std.OrientedCmp.eq_symm hba)
    exact Std.ExtTreeMap.getElem?_ofList_of_mem Std.ReflCmp.compare_self hdistinct
      (h.mem_iff.mpr (Std.ExtTreeMap.mem_toList_iff_getElem?_eq_some.mpr hk))
  | none =>
    apply Std.ExtTreeMap.getElem?_ofList_of_contains_eq_false
    have hkeys : (pairs.map Prod.fst).Perm m.keys := by
      rw [← Std.ExtTreeMap.map_fst_toList_eq_keys]
      exact h.map Prod.fst
    rw [hkeys.contains_eq]
    simpa using hk

theorem lastByKeyMap_toList (m : Std.ExtTreeMap κ α) : lastByKeyMap m.toList = m :=
  lastByKeyMap_of_perm (.refl _)

theorem lookup_reverse_toList (m : Std.ExtTreeMap κ α) (k : κ) :
    m.toList.reverse.lookup k = m[k]? := by
  rw [← getElem?_lastByKeyMap, lastByKeyMap_toList]

end ShardedRecords
