import ShardedRecords.BucketedTable.Config
import ShardedRecords.Proofs.Routing.Router

/-!
# Keys that share a bucket

As 33 is odd, shifting a hash can be undone modulo every power of two. So among a power of
two of buckets, a suffix neither brings keys together nor takes them apart, and one byte that is
changed leads to another bucket as soon as there are as many buckets as bytes.
-/
namespace ShardedRecords

/-- The keys are equally long and differ at exactly one place. -/
def Bytes.DifferOnce (p q : Bytes) : Prop :=
  p.length = q.length ∧ ∃ i : ℕ, p[i]? ≠ q[i]? ∧ ∀ j : ℕ, j ≠ i → p[j]? = q[j]?

theorem Bytes.DifferOnce.exists_split {p q : Bytes} (h : p.DifferOnce q) :
    ∃ front x y rest, x ≠ y ∧ p = front ++ x :: rest ∧ q = front ++ y :: rest := by
  obtain ⟨hlength, i, hne, hother⟩ := h
  have hp : i < p.length := by
    by_contra hle
    have hq : q.length ≤ i := by omega
    rw [List.getElem?_eq_none (by omega), List.getElem?_eq_none hq] at hne
    exact hne rfl
  have hq : i < q.length := hlength ▸ hp
  have hfront : q.take i = p.take i := by
    apply List.ext_getElem?
    intro j
    by_cases hj : j < i
    · rw [List.getElem?_take_of_lt hj, List.getElem?_take_of_lt hj, hother j (Nat.ne_of_lt hj)]
    · rw [List.getElem?_take_eq_none (by omega), List.getElem?_take_eq_none (by omega)]
  have hrest : q.drop (i + 1) = p.drop (i + 1) := by
    apply List.ext_getElem?
    intro j
    rw [List.getElem?_drop, List.getElem?_drop, hother (i + 1 + j) (by omega)]
  refine ⟨p.take i, p[i], q[i], p.drop (i + 1), ?_, ?_, ?_⟩
  · simpa [hp, hq] using hne
  · simp
  · rw [← hfront, ← hrest]
    simp

/-! ## The hash modulo a power of two -/

section PowerOfTwo

variable {k : ℕ} (hk : k ≤ 64)
include hk

theorem toNat_djb2_append_modEq_pow (p s : Bytes) :
    (djb2 (p ++ s)).toNat ≡ (djb2 p).toNat * 33 ^ s.length + s.base33 [MOD 2 ^ k] :=
  (toNat_djb2_append_modEq p s).of_dvd (pow_dvd_pow 2 hk)

theorem djb2_append_modEq_iff (p q s : Bytes) :
    (djb2 (p ++ s)).toNat ≡ (djb2 (q ++ s)).toNat [MOD 2 ^ k] ↔
      (djb2 p).toNat ≡ (djb2 q).toNat [MOD 2 ^ k] := by
  have hp := toNat_djb2_append_modEq_pow hk p s
  have hq := toNat_djb2_append_modEq_pow hk q s
  have hodd : (2 ^ k).Coprime (33 ^ s.length) := Nat.Coprime.pow k s.length (by decide)
  constructor
  · intro h
    have hsum := (hp.symm.trans h).trans hq
    exact Nat.ModEq.cancel_right_of_coprime hodd (Nat.ModEq.add_right_cancel' _ hsum)
  · intro h
    have hsum := (h.mul_right (33 ^ s.length)).add_right s.base33
    exact (hp.trans hsum).trans hq.symm

/-- What is behind a changed byte does not matter, and in front of it there is nothing to
make up for the change. -/
theorem not_djb2_modEq_of_ne (hbytes : 8 ≤ k) {x y : UInt8} (hne : x ≠ y) (front rest : Bytes) :
    ¬(djb2 (front ++ x :: rest)).toNat ≡ (djb2 (front ++ y :: rest)).toNat [MOD 2 ^ k] := by
  intro h
  rw [List.append_cons, List.append_cons front y, djb2_append_modEq_iff hk] at h
  have hx := toNat_djb2_append_modEq_pow hk front [x]
  have hy := toNat_djb2_append_modEq_pow hk front [y]
  have hsum := (hx.symm.trans h).trans hy
  rw [Bytes.base33_singleton, Bytes.base33_singleton] at hsum
  have hbyte : 2 ^ 8 ≤ 2 ^ k := Nat.pow_le_pow_right (by decide) hbytes
  have hx_lt := x.toNat_lt
  have hy_lt := y.toNat_lt
  have heq : x.toNat = y.toNat :=
    (Nat.ModEq.add_left_cancel' _ hsum).eq_of_lt_of_lt (by omega) (by omega)
  exact hne (UInt8.toNat_inj.mp heq)

end PowerOfTwo

theorem djb2_append_eq_iff (p q s : Bytes) :
    djb2 (p ++ s) = djb2 (q ++ s) ↔ djb2 p = djb2 q := by
  have hword : ∀ a b : Bytes, djb2 a = djb2 b ↔ (djb2 a).toNat ≡ (djb2 b).toNat [MOD 2 ^ 64] := by
    intro a b
    rw [← UInt64.toNat_inj, Nat.ModEq, Nat.mod_eq_of_lt (djb2 a).toNat_lt,
      Nat.mod_eq_of_lt (djb2 b).toNat_lt]
  rw [hword, hword, djb2_append_modEq_iff le_rfl]

theorem Router.index_eq_iff_modEq (r : Router) (p q : Bytes) :
    r.index p = r.index q ↔ (djb2 p).toNat ≡ (djb2 q).toNat [MOD r.bucketCount.toNat] := by
  rw [← UInt64.toNat_inj, toNat_index, toNat_index]
  rfl

/-- Among a power of two of buckets two keys share a bucket exactly if they do so with any
suffix, and in the same way for whole hashes. With 256 buckets or more, keys that differ in
one byte never share one. -/
theorem collisions_among_power_of_two {k : ℕ} (hk : k ≤ 63) :
    ∃ r, Router.ofCount (.ofNat (2 ^ k)) = .ok r ∧ r.bucketCount.toNat = 2 ^ k ∧
      (∀ key, Router.indexAmong (.ofNat (2 ^ k)) key = .ok (r.index key)) ∧
      (∀ p q s, r.index (p ++ s) = r.index (q ++ s) ↔ r.index p = r.index q) ∧
      (∀ p q s, djb2 (p ++ s) = djb2 (q ++ s) ↔ djb2 p = djb2 q) ∧
      (8 ≤ k → ∀ p q : Bytes, p.DifferOnce q → r.index p ≠ r.index q) := by
  have hlt : 2 ^ k < 2 ^ 64 := Nat.pow_lt_pow_right (by decide) (by omega)
  have hcount : (UInt64.ofNat (2 ^ k)).toNat = 2 ^ k := UInt64.toNat_ofNat_of_lt' hlt
  have hne : UInt64.ofNat (2 ^ k) ≠ 0 := by
    intro heq
    rw [heq] at hcount
    exact (Nat.two_pow_pos k).ne hcount
  obtain ⟨r, hr, hbuckets⟩ := Router.exists_ofCount_eq_ok hne
  rw [← hbuckets] at hcount
  have hword : k ≤ 64 := by omega
  refine ⟨r, hr, hcount, Router.indexAmong_eq_ok hr, ?_, djb2_append_eq_iff, ?_⟩
  · intro p q s
    rw [r.index_eq_iff_modEq, r.index_eq_iff_modEq, hcount]
    exact djb2_append_modEq_iff hword p q s
  · intro hbytes p q hdiffer
    obtain ⟨front, x, y, rest, hxy, rfl, rfl⟩ := hdiffer.exists_split
    rw [ne_eq, r.index_eq_iff_modEq, hcount]
    exact not_djb2_modEq_of_ne hword hbytes hxy front rest

/-- Among as many buckets as there are by default, the hashes of two keys lead to one bucket
although they differ by 1024, and still do so with any suffix. -/
theorem collisions_among_power_of_two_default :
    let n := BucketedTable.Config.defaultBucketCount
    (10 ≤ 63 ∧ 8 ≤ 10 ∧ Bytes.DifferOnce [0, 0, 7] [0, 9, 7]) ∧ n = .ofNat (2 ^ 10) ∧
      djb2 [0, 0] ≠ djb2 [31, 1] ∧
      (∀ s, Router.indexAmong n ([0, 0] ++ s) = Router.indexAmong n ([31, 1] ++ s)) ∧
      Router.indexAmong n [0, 0, 7] ≠ Router.indexAmong n [0, 9, 7] := by
  intro n
  have hdiffer : Bytes.DifferOnce [0, 0, 7] [0, 9, 7] := by
    refine ⟨rfl, 1, by decide, fun j hj => ?_⟩
    rcases j with _ | _ | j
    · rfl
    · exact absurd rfl hj
    · rfl
  obtain ⟨r, -, hcount, hamong, hsuffix, -, hbyte⟩ := collisions_among_power_of_two
    (by decide : 10 ≤ 63)
  have hamong : ∀ key, Router.indexAmong n key = .ok (r.index key) := hamong
  have hshared : r.index [0, 0] = r.index [31, 1] := by
    rw [r.index_eq_iff_modEq, hcount]
    decide +kernel
  refine ⟨⟨by decide, by decide, hdiffer⟩, rfl, by decide +kernel, fun s => ?_, ?_⟩
  · rw [hamong, hamong, (hsuffix _ _ s).mpr hshared]
  · rw [hamong, hamong]
    exact fun heq => hbyte (by decide) _ _ hdiffer (Except.ok.inj heq)

end ShardedRecords
