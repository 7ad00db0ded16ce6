/-
Filters of pull requests (`crds_filter.rs`).

The hash space is cut into `2 ^ mask_bits` parts.  A filter names its part by
a mask: the top bits are the seed of the part, the other bits are set.

* `computeMask_eq_ok` — when the mask of a seed is computed, and its value;
* `or_eq_computeMask_iff` — a filter matches the hashes whose top bits are its seed;
* `existsUnique_seed` — every hash is in one part.
-/
import Mathlib.Data.Nat.Bitwise
import Sg32.Foundation.Panic

namespace Sg32

open Rust

/-! ### Masks, as numbers -/

theorem or_two_pow_sub_one (n k : ℕ) : n ||| (2 ^ k - 1) = n / 2 ^ k * 2 ^ k + (2 ^ k - 1) := by
  have hlow : 2 ^ k - 1 < 2 ^ k := Nat.sub_lt (Nat.two_pow_pos k) Nat.one_pos
  rw [Nat.mul_comm, Nat.two_pow_add_eq_or_of_lt hlow]
  refine Nat.eq_of_testBit_eq fun i => ?_
  rw [Nat.testBit_or, Nat.testBit_or, Nat.testBit_two_pow_sub_one, Nat.testBit_two_pow_mul,
    Nat.testBit_div_two_pow]
  by_cases hi : i < k
  · simp [hi]
  · have hle : k ≤ i := not_lt.mp hi
    simp [hi, hle, Nat.sub_add_cancel hle]

theorem or_two_pow_sub_one_inj {m n k : ℕ} :
    m ||| (2 ^ k - 1) = n ||| (2 ^ k - 1) ↔ m / 2 ^ k = n / 2 ^ k := by
  rw [or_two_pow_sub_one, or_two_pow_sub_one, Nat.add_right_cancel_iff,
    Nat.mul_left_inj (Nat.two_pow_pos k).ne']

theorem two_pow_split {b : ℕ} (hb : b ≤ 63) : 2 ^ b * 2 ^ (64 - b) = 2 ^ 64 := by
  rw [← Nat.pow_add, Nat.add_sub_of_le (hb.trans (by decide))]

/-! ### Filters -/

/-- `u64::MAX`. -/
def maxU64 : UInt64 := 0xffffffffffffffff

def computeMask (seed : UInt64) (mask_bits : UInt32) : Checked UInt64 :=
  if mask_bits = 0 then .ok maxU64
  else if ¬mask_bits ≤ 64 then .error .assertionFailed
  else if ¬seed.toNat < 2 ^ mask_bits.toNat then .error .assertionFailed
  else
    let maskPrefix := if mask_bits = 64 then seed else seed <<< (64 - mask_bits).toUInt64
    let maskSuffix := if mask_bits = 64 then 0 else maxU64 >>> mask_bits.toUInt64
    .ok (maskPrefix ||| maskSuffix)

/-- `F` stands for the Bloom filters. -/
structure CrdsFilter (F : Type) where
  filter : F
  mask : UInt64
  mask_bits : UInt32

namespace CrdsFilter

variable {F : Type}

/-- The filter of one part.  The Bloom filter and the number of parts, which is
computed in floating point, are given. -/
def newSeeded (filter : F) (mask_bits : UInt32) (seed : UInt64) : Checked (CrdsFilter F) := do
  let num_partitions := 2 ^ min mask_bits.toNat 63
  let seed := (seed.toNat % num_partitions).toUInt64
  let mask ← computeMask seed mask_bits
  .ok { filter := filter, mask := mask, mask_bits := mask_bits }

/-- The values that a peer looks at for this filter, by the first eight bytes
of their hash. -/
def Matches (filter : CrdsFilter F) (hash : UInt64) : Prop :=
  hash ||| (maxU64 >>> filter.mask_bits.toUInt64) = filter.mask

end CrdsFilter

/-! ### The mask of a seed -/

/-- The seed of the part that a hash is in. -/
def seedOf (mask_bits : UInt32) (hash : UInt64) : ℕ := hash.toNat / 2 ^ (64 - mask_bits.toNat)

theorem seedOf_lt {mask_bits : UInt32} (hbits : mask_bits.toNat ≤ 63) (hash : UInt64) :
    seedOf mask_bits hash < 2 ^ mask_bits.toNat := by
  refine Nat.div_lt_of_lt_mul ?_
  rw [Nat.mul_comm, two_pow_split hbits]
  exact hash.toNat_lt

theorem toNat_maxU64_shiftRight {mask_bits : UInt32} (hbits : mask_bits.toNat ≤ 63) :
    (maxU64 >>> mask_bits.toUInt64).toNat = 2 ^ (64 - mask_bits.toNat) - 1 := by
  have hmod : mask_bits.toNat % 64 = mask_bits.toNat := Nat.mod_eq_of_lt (by omega)
  have hpos := Nat.two_pow_pos mask_bits.toNat
  have hmax : 2 ^ 64 - 1 =
      2 ^ mask_bits.toNat - 1 + 2 ^ mask_bits.toNat * (2 ^ (64 - mask_bits.toNat) - 1) := by
    rw [Nat.mul_sub_one, two_pow_split hbits]
    have hle : 2 ^ mask_bits.toNat ≤ 2 ^ 64 := Nat.pow_le_pow_right (by decide) (by omega)
    omega
  rw [UInt64.toNat_shiftRight, UInt32.toNat_toUInt64, hmod, Nat.shiftRight_eq_div_pow]
  show (2 ^ 64 - 1) / 2 ^ mask_bits.toNat = _
  rw [hmax, Nat.add_mul_div_left _ _ hpos, Nat.div_eq_of_lt (Nat.sub_lt hpos Nat.one_pos),
    Nat.zero_add]

/-- The mask of a seed: the seed, then ones. -/
def maskOf (mask_bits : UInt32) (seed : ℕ) : ℕ :=
  seed * 2 ^ (64 - mask_bits.toNat) ||| (2 ^ (64 - mask_bits.toNat) - 1)

theorem toNat_shiftLeft_seed {mask_bits : UInt32} (hpos : 0 < mask_bits.toNat)
    (hbits : mask_bits.toNat ≤ 63) {seed : UInt64} (hseed : seed.toNat < 2 ^ mask_bits.toNat) :
    (seed <<< (64 - mask_bits).toUInt64).toNat = seed.toNat * 2 ^ (64 - mask_bits.toNat) := by
  have hsub : (64 - mask_bits).toNat = 64 - mask_bits.toNat := by
    rw [UInt32.toNat_sub_of_le _ _ (UInt32.le_iff_toNat_le.mpr (hbits.trans (by decide)))]
    rfl
  have hmod : (64 - mask_bits.toNat) % 64 = 64 - mask_bits.toNat := Nat.mod_eq_of_lt (by omega)
  have hlt : seed.toNat * 2 ^ (64 - mask_bits.toNat) < 2 ^ 64 := by
    rw [← two_pow_split hbits]
    exact Nat.mul_lt_mul_of_pos_right hseed (Nat.two_pow_pos _)
  rw [UInt64.toNat_shiftLeft, UInt32.toNat_toUInt64, hsub, hmod, Nat.shiftLeft_eq,
    Nat.mod_eq_of_lt hlt]

/-- **When the mask of a seed is computed**, and what it is. -/
theorem computeMask_eq_ok {mask_bits : UInt32} (hbits : mask_bits.toNat ≤ 63) {seed : UInt64}
    (hseed : seed.toNat < 2 ^ mask_bits.toNat) :
    ∃ mask, computeMask seed mask_bits = .ok mask ∧ mask.toNat = maskOf mask_bits seed.toNat := by
  rw [computeMask, maskOf]
  by_cases hzero : mask_bits = 0
  · subst hzero
    obtain hseed : seed.toNat = 0 := by simpa using hseed
    rw [if_pos rfl, hseed]
    exact ⟨maxU64, rfl, rfl⟩
  · have hpos : 0 < mask_bits.toNat :=
      Nat.pos_of_ne_zero fun h => hzero (UInt32.toNat_inj.mp h)
    have hle : mask_bits ≤ 64 := UInt32.le_iff_toNat_le.mpr (hbits.trans (by decide))
    have hne : mask_bits ≠ 64 := by
      rintro rfl
      exact absurd hbits (by decide)
    rw [if_neg hzero, if_neg (not_not_intro hle), if_neg (not_not_intro hseed)]
    refine ⟨_, rfl, ?_⟩
    rw [if_neg hne, if_neg hne, UInt64.toNat_or, toNat_shiftLeft_seed hpos hbits hseed,
      toNat_maxU64_shiftRight hbits]

/-- The masks of two seeds agree only when the seeds do. -/
theorem maskOf_inj {mask_bits : UInt32} {seed seed' : ℕ} :
    maskOf mask_bits seed = maskOf mask_bits seed' ↔ seed = seed' := by
  rw [maskOf, maskOf, or_two_pow_sub_one_inj, Nat.mul_div_cancel _ (Nat.two_pow_pos _),
    Nat.mul_div_cancel _ (Nat.two_pow_pos _)]

theorem toNat_or_maxU64_shiftRight {mask_bits : UInt32} (hbits : mask_bits.toNat ≤ 63)
    (hash : UInt64) :
    (hash ||| (maxU64 >>> mask_bits.toUInt64)).toNat =
      maskOf mask_bits (seedOf mask_bits hash) := by
  rw [UInt64.toNat_or, toNat_maxU64_shiftRight hbits, maskOf, or_two_pow_sub_one_inj, seedOf,
    Nat.mul_div_cancel _ (Nat.two_pow_pos _)]

/-- **A hash meets the mask of a seed** exactly if the seed is its top bits. -/
theorem or_eq_computeMask_iff {mask_bits : UInt32} (hbits : mask_bits.toNat ≤ 63)
    {seed : UInt64} (hseed : seed.toNat < 2 ^ mask_bits.toNat) (hash : UInt64) :
    computeMask seed mask_bits = .ok (hash ||| (maxU64 >>> mask_bits.toUInt64)) ↔
      seed.toNat = seedOf mask_bits hash := by
  obtain ⟨mask, hmask, hvalue⟩ := computeMask_eq_ok hbits hseed
  rw [hmask, Except.ok.injEq, ← UInt64.toNat_inj, hvalue, toNat_or_maxU64_shiftRight hbits,
    maskOf_inj]

/-- **Every hash is in one part.** -/
theorem existsUnique_seed {mask_bits : UInt32} (hbits : mask_bits.toNat ≤ 63) (hash : UInt64) :
    ∃! seed : UInt64, seed.toNat < 2 ^ mask_bits.toNat ∧
      computeMask seed mask_bits = .ok (hash ||| (maxU64 >>> mask_bits.toUInt64)) := by
  have hlt := seedOf_lt hbits hash
  have hsize : 2 ^ mask_bits.toNat < 2 ^ 64 := Nat.pow_lt_pow_right (by decide) (by omega)
  have htoNat : (seedOf mask_bits hash).toUInt64.toNat = seedOf mask_bits hash :=
    UInt64.toNat_ofNat_of_lt' (hlt.trans hsize)
  refine ⟨(seedOf mask_bits hash).toUInt64, ⟨by rwa [htoNat], ?_⟩, ?_⟩
  · exact (or_eq_computeMask_iff hbits (by rwa [htoNat]) hash).mpr htoNat
  · rintro seed ⟨hseed, hmask⟩
    rw [← UInt64.toNat_inj, htoNat]
    exact (or_eq_computeMask_iff hbits hseed hash).mp hmask

namespace CrdsFilter

variable {F : Type} (filter : F) {mask_bits : UInt32}

/-- The filter of a seed in range: it has the mask of its seed, so it matches
the hashes of its part. -/
theorem newSeeded_eq_ok (hbits : mask_bits.toNat ≤ 63) {seed : UInt64}
    (hseed : seed.toNat < 2 ^ mask_bits.toNat) :
    ∃ crdsFilter : CrdsFilter F, newSeeded filter mask_bits seed = .ok crdsFilter ∧
      ∀ hash, crdsFilter.Matches hash ↔ seed.toNat = seedOf mask_bits hash := by
  obtain ⟨mask, hmask, hvalue⟩ := computeMask_eq_ok hbits hseed
  refine ⟨{ filter := filter, mask := mask, mask_bits := mask_bits }, ?_, fun hash => ?_⟩
  · rw [newSeeded]
    simp only [Nat.min_eq_left hbits, Nat.mod_eq_of_lt hseed, Nat.toUInt64_eq,
      UInt64.ofNat_toNat, hmask, ok_bind]
  · rw [← or_eq_computeMask_iff hbits hseed, hmask, Except.ok.injEq]
    exact eq_comm

end CrdsFilter

end Sg32
