import ShardedRecords.Proofs.Routing.BlobKey
import ShardedRecords.Proofs.Routing.Hash
import ShardedRecords.Routing.Router

/-!
# Where a key is routed to

Every way of asking for the bucket of a key gives the hash of the key modulo the number of
buckets, or its blob key, and fails if there are no buckets.
-/
namespace ShardedRecords

namespace Router

variable {n : UInt64}

theorem exists_ofCount_eq_ok (h : n ≠ 0) : ∃ r, ofCount n = .ok r ∧ r.bucketCount = n := by
  unfold ofCount
  rw [dif_neg h]
  exact ⟨⟨n, h⟩, rfl, rfl⟩

theorem indexAmong_eq_ok {r : Router} (h : ofCount n = .ok r) (key : Bytes) :
    indexAmong n key = .ok (r.index key) := by
  unfold indexAmong
  rw [h]
  rfl

theorem blobKeyAmong_eq_ok {r : Router} (h : ofCount n = .ok r) (key : Bytes) :
    blobKeyAmong n key = .ok (r.blobKey key) := by
  unfold blobKeyAmong
  rw [indexAmong_eq_ok h]
  rfl

theorem toNat_index (r : Router) (key : Bytes) :
    (r.index key).toNat = (djb2 key).toNat % r.bucketCount.toNat :=
  UInt64.toNat_mod _ _

end Router

/-- The hash is a number to the base 33 modulo 2^64, and that of a longer key is found from the
hashes of its two parts. The index of a bucket is what the hash leaves modulo the number of
buckets, and a blob key and its index can be found from each other. Without buckets there is
no answer. -/
theorem routes_by_djb2 :
    (∀ key : Bytes, (djb2 key).toNat = (5381 * 33 ^ key.length + key.base33) % 2 ^ 64) ∧
    (∀ a b : Bytes, ((djb2 (a ++ b)).toNat : ℤ) =
      (((djb2 a).toNat - 5381) * 33 ^ b.length + (djb2 b).toNat) % 2 ^ 64) ∧
    (∀ n : UInt64, n ≠ 0 → ∃ r, Router.ofCount n = .ok r ∧ r.bucketCount = n ∧
      ∀ key, (r.index key).toNat = (djb2 key).toNat % n.toNat ∧ r.index key < n ∧
        r.blobKey key = .pack (r.index key) ∧
        Router.indexAmong n key = .ok (r.index key) ∧
        Router.blobKeyAmong n key = .ok (.pack (r.index key)) ∧
        ∀ rest, BlobKey.unpack ((r.blobKey key).toList ++ rest) = .ok (r.index key)) ∧
    (∀ bs : Bytes, 8 ≤ bs.length →
      ∃ index, BlobKey.unpack bs = .ok index ∧ (BlobKey.pack index).toList = bs.take 8) ∧
    Router.ofCount 0 = .error .noBuckets ∧
      ∀ key, Router.indexAmong 0 key = .error .noBuckets ∧
        Router.blobKeyAmong 0 key = .error .noBuckets := by
  constructor
  · exact toNat_djb2
  constructor
  · exact toNat_djb2_append
  constructor
  · intro n hn
    obtain ⟨r, hr, hcount⟩ := Router.exists_ofCount_eq_ok hn
    subst hcount
    have hunpack : ∀ key rest,
        BlobKey.unpack ((r.blobKey key).toList ++ rest) = .ok (r.index key) := by
      intro key rest
      exact BlobKey.unpack_pack_append (r.index key) rest
    exact ⟨r, hr, rfl, fun key => ⟨r.toNat_index key, r.index_lt key, rfl,
      Router.indexAmong_eq_ok hr key, Router.blobKeyAmong_eq_ok hr key, hunpack key⟩⟩
  constructor
  · intro bs hlength
    exact BlobKey.exists_unpack_eq_ok hlength
  · exact ⟨rfl, fun key => ⟨rfl, rfl⟩⟩

/-- The number behind the hash of a hundred bytes is far larger than 2^64, so that among ten
buckets it would itself lead to another one than the hash does. -/
theorem routes_by_djb2_wrapping :
    let key : Bytes := List.replicate 100 120
    let bs : Bytes := [5, 1, 0, 0, 0, 0, 0, 0, 255]
    ((10 : UInt64) ≠ 0 ∧ 8 ≤ bs.length) ∧
      Router.indexAmong 10 key = .ok 5 ∧ (5381 * 33 ^ key.length + key.base33) % 10 ≠ 5 ∧
      ∃ index, BlobKey.unpack bs = .ok index ∧
        (BlobKey.pack index).toList = [5, 1, 0, 0, 0, 0, 0, 0] := by
  intro key bs
  have hten : (10 : UInt64) ≠ 0 := by decide
  have hlength : 8 ≤ bs.length := by decide
  obtain ⟨-, -, hroute, hunpack, -⟩ := routes_by_djb2
  obtain ⟨r, -, -, hr⟩ := hroute 10 hten
  obtain ⟨hindex, -, -, hamong, -⟩ := hr key
  have hfive : r.index key = 5 := by
    apply UInt64.toNat_inj.mp
    rw [hindex]
    decide +kernel
  exact ⟨⟨hten, hlength⟩, hfive ▸ hamong, by decide +kernel, hunpack bs hlength⟩

end ShardedRecords
