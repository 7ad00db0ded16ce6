/-
The room that a pull request has for its filter (`pull_request.rs`).

A cache is built once: for each size of an encoded filter it holds the number
of bloom bytes that leads to it, and forward-filled the largest number that
leads to at most that size.  A caller that takes more than a packet has no room.

* `getElem?_cache` — what the cache holds, for sizes that do not decrease;
* `largestBudget_largest` — that is the largest number of bytes that fits;
* `returnsBudget_of_room` — the lookup returns it for a caller whose size and
  the tag add up in 64 bits;
* `returnsBudget_iff` — and when it does for any other.
-/
import Mathlib.Data.UInt
import Mathlib.Order.Bounds.Basic
import Sg32.Foundation.InverseTable
import Sg32.Foundation.Panic

namespace Sg32.BloomBudget

open Rust InverseTable

def PACKET_DATA_SIZE : ℕ := 1232

/-! ### The cache

`serialized_size` is the size of an encoded filter with so many bloom bytes and
no items, when it can be encoded. -/

/-- The loop body: the bloom bytes are stored at the size of their filter. -/
def cacheBloomBytes (serialized_size : ℕ → Option ℕ) (cache : List UInt16) (bloom_bytes : ℕ) :
    List UInt16 :=
  match serialized_size bloom_bytes with
  | some size =>
    if size ≤ PACKET_DATA_SIZE then cache.set size (.ofNat bloom_bytes) else cache
  | none => cache

def MAX_BLOOM_BYTES_CACHE (serialized_size : ℕ → Option ℕ) : List UInt16 :=
  forwardFill 0 <|
    (List.range' 1 PACKET_DATA_SIZE).foldl (cacheBloomBytes serialized_size)
      (List.replicate (PACKET_DATA_SIZE + 1) 0)

def getMaxBloomFilterBytes (build : Build) (serialized_size : ℕ → Option ℕ)
    (caller_size : UInt64) : Checked ℕ := do
  let used ← addU64 build 4 caller_size
  let target := if used.toNat ≤ PACKET_DATA_SIZE then PACKET_DATA_SIZE - used.toNat else 0
  .ok (((MAX_BLOOM_BYTES_CACHE serialized_size)[target]?.map UInt16.toNat).getD 0)

/-! ### What is cached -/

variable {size : ℕ → ℕ}

theorem cacheBloomBytes_eq (cache : List UInt16) (hlen : cache.length = PACKET_DATA_SIZE + 1)
    (b : ℕ) :
    cacheBloomBytes (fun b => some (size b)) cache b = cache.set (size b) (.ofNat b) := by
  rw [cacheBloomBytes]
  dsimp only
  split_ifs with hle
  · rfl
  · -- the size is behind the end of the cache
    exact (List.set_eq_of_length_le (by omega)).symm

theorem foldl_cacheBloomBytes (n : ℕ) :
    (List.range' 1 n).foldl (cacheBloomBytes fun b => some (size b))
        (List.replicate (PACKET_DATA_SIZE + 1) 0) =
      stored size UInt16.ofNat (PACKET_DATA_SIZE + 1) n := by
  induction n with
  | zero => rfl
  | succ n ih =>
    rw [List.range'_1_concat, List.foldl_append, ih, Nat.add_comm 1 n, stored_succ]
    exact cacheBloomBytes_eq _ (length_stored _ _ _) _

theorem ofNat_eq_zero_iff {b : ℕ} (hb : b ≤ PACKET_DATA_SIZE) : UInt16.ofNat b = 0 ↔ b = 0 := by
  have hlt : b < UInt16.size := lt_of_le_of_lt hb (by decide)
  rw [← UInt16.toNat_inj, UInt16.toNat_ofNat_of_lt' hlt]
  rfl

/-- The cache holds the largest number of bloom bytes of each size. -/
theorem getElem?_cache (hmono : Monotone size) (hpos : ∀ b, 0 < size b) {t : ℕ}
    (ht : t ≤ PACKET_DATA_SIZE) :
    (MAX_BLOOM_BYTES_CACHE fun b => some (size b))[t]? =
      some (.ofNat (largest size PACKET_DATA_SIZE t)) := by
  rw [MAX_BLOOM_BYTES_CACHE, foldl_cacheBloomBytes]
  exact getElem?_inverse hmono hpos (fun b hb => ofNat_eq_zero_iff hb) (Nat.lt_succ_of_le ht)

/-- What a caller gets that leaves room for a filter of `target` bytes. -/
theorem cached_eq (hmono : Monotone size) (hpos : ∀ b, 0 < size b) {target : ℕ}
    (ht : target ≤ PACKET_DATA_SIZE) :
    (((MAX_BLOOM_BYTES_CACHE fun b => some (size b))[target]?.map UInt16.toNat).getD 0) =
      largest size PACKET_DATA_SIZE target := by
  have hlt : largest size PACKET_DATA_SIZE target < UInt16.size :=
    lt_of_le_of_lt (largest_le _ _) (by decide)
  rw [getElem?_cache hmono hpos ht, Option.map_some, Option.getD_some,
    UInt16.toNat_ofNat_of_lt' hlt]

/-! ### The largest budget -/

/-- The numbers of bloom bytes with which the request of the caller fits in a
packet: four bytes of tag, the filter and the caller. -/
def budgets (size : ℕ → ℕ) (caller_size : ℕ) : Set ℕ :=
  {b | 1 ≤ b ∧ b ≤ PACKET_DATA_SIZE ∧ 4 + size b + caller_size ≤ PACKET_DATA_SIZE}

/-- The largest budget, or 0 if there is none. -/
def LargestBudget (size : ℕ → ℕ) (caller_size bytes : ℕ) : Prop :=
  IsGreatest (budgets size caller_size) bytes ∨ budgets size caller_size = ∅ ∧ bytes = 0

theorem mem_budgets_iff (hpos : ∀ b, 0 < size b) {caller_size b : ℕ} :
    b ∈ budgets size caller_size ↔
      1 ≤ b ∧ b ≤ PACKET_DATA_SIZE ∧ size b ≤ PACKET_DATA_SIZE - (4 + caller_size) := by
  have hb := hpos b
  rw [budgets, Set.mem_ofPred_eq]
  refine and_congr_right fun _ => and_congr_right fun _ => ?_
  omega

theorem largestBudget_largest (hpos : ∀ b, 0 < size b) (caller_size : ℕ) :
    LargestBudget size caller_size
      (largest size PACKET_DATA_SIZE (PACKET_DATA_SIZE - (4 + caller_size))) := by
  have hupper : ∀ b ∈ budgets size caller_size,
      b ≤ largest size PACKET_DATA_SIZE (PACKET_DATA_SIZE - (4 + caller_size)) := by
    intro b hb
    obtain ⟨-, hle, hsize⟩ := (mem_budgets_iff hpos).mp hb
    exact le_largest hle hsize
  by_cases hzero : largest size PACKET_DATA_SIZE (PACKET_DATA_SIZE - (4 + caller_size)) = 0
  · refine .inr ⟨Set.eq_empty_iff_forall_notMem.mpr fun b hb => ?_, hzero⟩
    have hle := hupper b hb
    have hone := hb.1
    omega
  · refine .inl ⟨(mem_budgets_iff hpos).mpr ⟨Nat.pos_of_ne_zero hzero, largest_le _ _, ?_⟩, hupper⟩
    exact apply_largest_le hzero

/-- A caller that does not fit in a packet has no budget. -/
theorem budgets_eq_empty {caller_size : ℕ} (h : PACKET_DATA_SIZE < caller_size) :
    budgets size caller_size = ∅ := by
  refine Set.eq_empty_iff_forall_notMem.mpr ?_
  rintro b ⟨-, -, hfits⟩
  omega

theorem LargestBudget.eq_zero {caller_size bytes : ℕ} (h : LargestBudget size caller_size bytes)
    (hempty : budgets size caller_size = ∅) : bytes = 0 := by
  rcases h with ⟨hmem, -⟩ | ⟨-, hzero⟩
  · rw [hempty] at hmem
    exact absurd hmem (Set.notMem_empty _)
  · exact hzero

/-! ### The lookup -/

/-- The lookup returns the largest budget, and the request fits in a packet
unless that is 0. -/
def ReturnsBudget (build : Build) (size : ℕ → ℕ) (caller_size : UInt64) : Prop :=
  ∃ bytes, getMaxBloomFilterBytes build (fun b => some (size b)) caller_size = .ok bytes ∧
    LargestBudget size caller_size.toNat bytes ∧
    (bytes ≠ 0 → 4 + size bytes + caller_size.toNat ≤ PACKET_DATA_SIZE)

theorem LargestBudget.fits {caller_size bytes : ℕ} (h : LargestBudget size caller_size bytes)
    (hbytes : bytes ≠ 0) : 4 + size bytes + caller_size ≤ PACKET_DATA_SIZE := by
  rcases h with ⟨hmem, -⟩ | ⟨-, hzero⟩
  · exact hmem.2.2
  · exact absurd hzero hbytes

theorem getMaxBloomFilterBytes_eq (hmono : Monotone size) (hpos : ∀ b, 0 < size b) {build : Build}
    {caller_size used : UInt64} (hused : addU64 build 4 caller_size = .ok used) :
    getMaxBloomFilterBytes build (fun b => some (size b)) caller_size =
      .ok (largest size PACKET_DATA_SIZE (PACKET_DATA_SIZE - used.toNat)) := by
  have htarget : (if used.toNat ≤ PACKET_DATA_SIZE then PACKET_DATA_SIZE - used.toNat else 0) =
      PACKET_DATA_SIZE - used.toNat := by
    split_ifs with hle
    · rfl
    · exact (Nat.sub_eq_zero_of_le (Nat.le_of_not_le hle)).symm
  rw [getMaxBloomFilterBytes, hused, ok_bind]
  dsimp only
  rw [htarget, cached_eq hmono hpos (Nat.sub_le _ _)]

theorem getMaxBloomFilterBytes_of_room (build : Build) (hmono : Monotone size)
    (hpos : ∀ b, 0 < size b) {caller_size : UInt64} (hroom : 4 + caller_size.toNat < 2 ^ 64) :
    getMaxBloomFilterBytes build (fun b => some (size b)) caller_size =
      .ok (largest size PACKET_DATA_SIZE (PACKET_DATA_SIZE - (4 + caller_size.toNat))) := by
  obtain ⟨hused, htoNat⟩ := addU64_ok build (x := 4) (y := caller_size) hroom
  rw [getMaxBloomFilterBytes_eq hmono hpos hused, htoNat]
  rfl

/-- **A caller whose size does not overflow with the tag** gets the largest
budget. -/
theorem returnsBudget_of_room (build : Build) (hmono : Monotone size) (hpos : ∀ b, 0 < size b)
    {caller_size : UInt64} (hroom : 4 + caller_size.toNat < 2 ^ 64) :
    ReturnsBudget build size caller_size := by
  have hlargest := largestBudget_largest hpos caller_size.toNat
  exact ⟨_, getMaxBloomFilterBytes_of_room build hmono hpos hroom, hlargest, hlargest.fits⟩

/-- The size of a filter with three keys and its bits in whole words. -/
def sampleSize (bloom_bytes : ℕ) : ℕ := 69 + 8 * ((bloom_bytes + 7) / 8)

theorem sampleSize_mono : Monotone sampleSize := by
  intro b b' hle
  unfold sampleSize
  omega

/-- A contact info of 150 bytes. -/
theorem returnsBudget_sample :
    4 + (150 : UInt64).toNat < 2 ^ 64 ∧ ReturnsBudget .debug sampleSize 150 :=
  ⟨by decide, returnsBudget_of_room .debug sampleSize_mono (fun b => by unfold sampleSize; omega)
    (by decide)⟩

theorem not_returnsBudget_debug {caller_size : UInt64} (hroom : ¬ 4 + caller_size.toNat < 2 ^ 64) :
    ¬ ReturnsBudget .debug size caller_size := by
  have hpanic : addU64 .debug 4 caller_size = .error .arithmeticOverflow :=
    Build.check_debug_of_not hroom _
  rintro ⟨bytes, hbytes, -⟩
  rw [getMaxBloomFilterBytes, hpanic, error_bind] at hbytes
  cases hbytes

/-- When the sum wraps around, the only right answer is 0. -/
theorem returnsBudget_wrapped_iff (hmono : Monotone size) (hpos : ∀ b, 0 < size b)
    {caller_size : UInt64} (hroom : ¬ 4 + caller_size.toNat < 2 ^ 64) :
    ReturnsBudget .release size caller_size ↔
      largest size PACKET_DATA_SIZE (PACKET_DATA_SIZE - (4 + caller_size.toNat - 2 ^ 64)) = 0 := by
  have hpacket : PACKET_DATA_SIZE = 1232 := rfl
  have hempty : budgets size caller_size.toNat = ∅ := budgets_eq_empty (by omega)
  have hused : addU64 .release 4 caller_size = .ok (4 + caller_size) := Build.check_release _ _
  have htoNat : (4 + caller_size).toNat = 4 + caller_size.toNat - 2 ^ 64 := by
    have hlt := caller_size.toNat_lt
    rw [UInt64.toNat_add, show (4 : UInt64).toNat = 4 from rfl]
    omega
  have hlookup := getMaxBloomFilterBytes_eq hmono hpos hused
  rw [htoNat] at hlookup
  constructor
  · rintro ⟨bytes, hbytes, hlargest, -⟩
    rw [hlookup, Except.ok.injEq] at hbytes
    rw [hbytes]
    exact hlargest.eq_zero hempty
  · intro hzero
    exact ⟨_, hlookup, .inr ⟨hempty, hzero⟩, fun hne => absurd hzero hne⟩

/-- **When the lookup returns the largest budget**: the size of the caller and
the tag add up in 64 bits, or their sum wraps around to a size that leaves no
room for a filter either. -/
theorem returnsBudget_iff (build : Build) (hmono : Monotone size) (hpos : ∀ b, 0 < size b)
    (caller_size : UInt64) :
    ReturnsBudget build size caller_size ↔
      4 + caller_size.toNat < 2 ^ 64 ∨
        build = .release ∧ PACKET_DATA_SIZE < size 1 + (4 + caller_size.toNat - 2 ^ 64) := by
  by_cases hroom : 4 + caller_size.toNat < 2 ^ 64
  · have hlargest := largestBudget_largest hpos caller_size.toNat
    exact iff_of_true
      ⟨_, getMaxBloomFilterBytes_of_room build hmono hpos hroom, hlargest, hlargest.fits⟩
      (.inl hroom)
  simp only [hroom, false_or]
  cases build with
  | debug => exact iff_of_false (not_returnsBudget_debug hroom) (by simp)
  | release =>
    have hone := hpos 1
    rw [returnsBudget_wrapped_iff hmono hpos hroom, largest_eq_zero_iff hmono (by decide)]
    simp only [true_and]
    omega

/-- The largest caller: the sum with the tag overflows. -/
theorem returnsBudget_overflows : ¬ ∀ (build : Build) (size : ℕ → ℕ) (caller_size : UInt64),
    Monotone size → (∀ b, 0 < size b) → ReturnsBudget build size caller_size := by
  intro h
  obtain ⟨bytes, hbytes, -⟩ := h .debug sampleSize 0xFFFFFFFFFFFFFFFF sampleSize_mono
    (fun b => by unfold sampleSize; omega)
  have hpanic : addU64 .debug 4 0xFFFFFFFFFFFFFFFF = .error .arithmeticOverflow := rfl
  rw [getMaxBloomFilterBytes, hpanic, error_bind] at hbytes
  cases hbytes

end Sg32.BloomBudget
