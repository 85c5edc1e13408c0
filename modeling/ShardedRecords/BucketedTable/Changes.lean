import Std.Data.ExtTreeMap
import ShardedRecords.Wire.Table

/-!
# Changes to a table

A change puts a value under a key or erases the key. Changes are collected with
one for each key, so the order in which they are made does not matter: a changed
key is bound to what its change says, and every other key as before.
-/
namespace ShardedRecords

inductive Change
  | put (value : Bytes)
  | erase
  deriving DecidableEq, Repr

/-- What a changed key is bound to. -/
def Change.value? : Change → Option Bytes
  | put value => some value
  | erase => none

abbrev Changes := Std.ExtTreeMap Bytes Change

namespace Table

def change (t : Table) (key : Bytes) : Change → Table
  | .put value => t.insert key value
  | .erase => t.erase key

theorem getElem?_change (t : Table) (key : Bytes) (c : Change) (key' : Bytes) :
    (t.change key c)[key']? = if key = key' then c.value? else t[key']? := by
  cases c <;>
    simp [change, Change.value?, Std.ExtTreeMap.getElem?_insert, Std.ExtTreeMap.getElem?_erase]

theorem getElem?_foldl_change_of_notMem (cs : List (Bytes × Change)) (t : Table) {key : Bytes}
    (h : ∀ c ∈ cs, c.1 ≠ key) :
    (cs.foldl (fun t c => t.change c.1 c.2) t)[key]? = t[key]? := by
  induction cs generalizing t with
  | nil => rfl
  | cons c cs ih =>
    rw [List.foldl_cons, ih _ fun c hc => h c (List.mem_cons_of_mem _ hc), getElem?_change,
      if_neg (h c List.mem_cons_self)]

theorem getElem?_foldl_change_of_mem {cs : List (Bytes × Change)} (t : Table)
    (hcs : cs.Pairwise fun a b => a.1 ≠ b.1) {key : Bytes} {c : Change} (h : (key, c) ∈ cs) :
    (cs.foldl (fun t c => t.change c.1 c.2) t)[key]? = c.value? := by
  induction cs generalizing t with
  | nil => cases h
  | cons c' cs ih =>
    rw [List.pairwise_cons] at hcs
    rw [List.foldl_cons]
    rcases List.mem_cons.mp h with rfl | h
    · rw [getElem?_foldl_change_of_notMem cs _ fun c hc => (hcs.1 c hc).symm, getElem?_change,
        if_pos rfl]
    · exact ih _ hcs.2 h

def applyChanges (t : Table) (changes : Changes) : Table := changes.foldl change t

theorem getElem?_applyChanges (t : Table) (changes : Changes) (key : Bytes) :
    (t.applyChanges changes)[key]? =
      match changes[key]? with
      | some c => c.value?
      | none => t[key]? := by
  rw [applyChanges, Std.ExtTreeMap.foldl_eq_foldl_toList]
  cases h : changes[key]? with
  | some c =>
    refine getElem?_foldl_change_of_mem t ?_ (Std.ExtTreeMap.mem_toList_iff_getElem?_eq_some.mpr h)
    exact Std.ExtTreeMap.distinct_keys_toList.imp fun hne heq =>
      hne (by rw [heq]; exact Std.ReflCmp.compare_self)
  | none =>
    refine getElem?_foldl_change_of_notMem _ t fun c hc heq => ?_
    have := Std.ExtTreeMap.mem_toList_iff_getElem?_eq_some.mp hc
    rw [heq, h] at this
    cases this

end Table

end ShardedRecords
