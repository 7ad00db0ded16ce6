/-
Compact lengths (`short_vec.rs` of the gossip crate).

A length is written seven bits at a time, least significant first, with the
high bit of a byte set when more bytes follow.

* `encodeLen_one`, `encodeLen_two`, `encodeLen_three` — the bytes of a length
  below `2 ^ 21`;
* `decodeLen_encodeLen` — a length of 64 bits is read back, whatever follows it;
* `decodeLenFrom_bytes`, `decodeLenFrom_takes` — what is read from any bytes, and
  how many of them.
-/
import Mathlib.Data.Nat.Digits.Defs
import Sg32.Foundation.Bytes
import Sg32.Foundation.Panic

namespace Sg32.ShortVec

open Rust

def encodeLen (len : ℕ) : Bytes :=
  let byte := UInt8.ofNat (len &&& 0x7F)
  if len >>> 7 > 0 then (byte ||| 0x80) :: encodeLen (len >>> 7) else [byte]
termination_by len
decreasing_by
  rw [Nat.shiftRight_eq_div_pow] at *
  omega

/-- The loop of `decode_len`, at byte `i`. -/
def decodeLenFrom (build : Build) : Bytes → ℕ → UInt64 → Checked (UInt64 × ℕ)
  | [], i, len => pure (len, i)
  | byte :: bytes, i, len => do
    let shifted ← shlU64 build (byte &&& 0x7F).toUInt64 (i * 7)
    let len := len ||| shifted
    if byte &&& 0x80 = 0 then pure (len, i + 1) else decodeLenFrom build bytes (i + 1) len

/-- The length at the start of the bytes, and how many bytes it takes. -/
def decodeLen (build : Build) (bytes : Bytes) : Checked (UInt64 × ℕ) :=
  decodeLenFrom build bytes 0 0

/-! ### Encoded bytes -/

theorem encodeLen_eq (len : ℕ) :
    encodeLen len = if 128 ≤ len then UInt8.ofNat (len % 128 + 128) :: encodeLen (len / 128)
      else [UInt8.ofNat len] := by
  have hlow : len &&& 0x7F = len % 128 := Nat.and_two_pow_sub_one_eq_mod len 7
  have hhigh : len >>> 7 = len / 128 := Nat.shiftRight_eq_div_pow len 7
  rw [encodeLen, hlow, hhigh]
  by_cases h : 128 ≤ len
  · rw [if_pos (by omega), if_pos h]
    congr 1
    have hor : len % 128 ||| 128 = len % 128 + 128 := by
      rw [Nat.or_comm, Nat.add_comm]
      exact (Nat.two_pow_add_eq_or_of_lt (i := 7) (Nat.mod_lt _ (by norm_num)) 1).symm
    rw [← hor, UInt8.ofNat_or]
    rfl
  · rw [if_neg (by omega), if_neg h, Nat.mod_eq_of_lt (by omega)]

theorem encodeLen_one {len : ℕ} (h : len < 128) : encodeLen len = [UInt8.ofNat len] := by
  rw [encodeLen_eq, if_neg (by omega)]

theorem encodeLen_two {len : ℕ} (h : 128 ≤ len) (h' : len < 16384) :
    encodeLen len = [UInt8.ofNat (len % 128 + 128), UInt8.ofNat (len / 128)] := by
  rw [encodeLen_eq, if_pos h, encodeLen_one (by omega)]

theorem encodeLen_three {len : ℕ} (h : 16384 ≤ len) (h' : len < 2097152) :
    encodeLen len = [UInt8.ofNat (len % 128 + 128), UInt8.ofNat (len / 128 % 128 + 128),
      UInt8.ofNat (len / 16384)] := by
  rw [encodeLen_eq, if_pos (by omega), encodeLen_two (by omega) (by omega), Nat.div_div_eq_div_mul]

/-! ### Decoded bytes -/

/-- Or-ing a number in above the bits already there adds it. -/
theorem or_shiftLeft {acc s : ℕ} (hacc : acc < 2 ^ s) (x : ℕ) :
    acc ||| x <<< s = acc + x * 2 ^ s := by
  rw [Nat.shiftLeft_eq, Nat.or_comm, Nat.mul_comm, ← Nat.two_pow_add_eq_or_of_lt hacc,
    Nat.add_comm]

theorem toNat_low {n : ℕ} (hn : n < 256) : ((UInt8.ofNat n) &&& 0x7f).toNat = n % 128 := by
  have hmask := Nat.and_two_pow_sub_one_eq_mod n 7
  rw [UInt8.toNat_and, UInt8.toNat_ofNat', Nat.mod_eq_of_lt hn]
  exact hmask

theorem high_bit {n : ℕ} (hn : n < 256) : (UInt8.ofNat n) &&& 0x80 = 0 ↔ n < 128 := by
  have hall : ∀ i : Fin 256, (UInt8.ofNat i) &&& 0x80 = 0 ↔ i.val < 128 := by decide +kernel
  exact hall ⟨n, hn⟩

section Decode

variable {build : Build} {i n : ℕ} {len : UInt64}

/-- Seven more bits, when they are below bit 64. -/
theorem shift_low (build : Build) (hlen : len.toNat < 2 ^ (i * 7)) (hi : i * 7 < 64) (hn : n < 256)
    (hfits : n % 128 * 2 ^ (i * 7) < 2 ^ 64) :
    ∃ shifted, shlU64 build (UInt8.ofNat n &&& 0x7F).toUInt64 (i * 7) = .ok shifted ∧
      (len ||| shifted).toNat = len.toNat + n % 128 * 2 ^ (i * 7) := by
  refine ⟨_, build.check_of_inRange hi _, ?_⟩
  have hshift : (UInt64.ofNat (i * 7)).toNat = i * 7 :=
    UInt64.toNat_ofNat_of_lt' (lt_trans hi (by decide))
  rw [UInt64.toNat_or, UInt64.toNat_shiftLeft, hshift, Nat.mod_eq_of_lt hi,
    UInt8.toNat_toUInt64, toNat_low hn, ← or_shiftLeft hlen, Nat.shiftLeft_eq,
    Nat.mod_eq_of_lt hfits]

theorem two_pow_next (i : ℕ) : 2 ^ ((i + 1) * 7) = 128 * 2 ^ (i * 7) := by
  rw [Nat.add_one_mul, Nat.pow_add, Nat.mul_comm]

/-- The lowest seven bits, and the others seven places up. -/
theorem mul_two_pow_split (n i : ℕ) :
    n * 2 ^ (i * 7) = n % 128 * 2 ^ (i * 7) + n / 128 * 2 ^ ((i + 1) * 7) := by
  rw [two_pow_next, ← Nat.mul_assoc, ← Nat.add_mul, Nat.mul_comm (n / 128), Nat.mod_add_div]

/-- A length is read back from byte `i` on, above what was read before. -/
theorem decodeLenFrom_encodeLen (build : Build) (rest : Bytes)
    (hlen : len.toNat < 2 ^ (i * 7)) (hi : i * 7 < 64) (hn : n * 2 ^ (i * 7) < 2 ^ 64) :
    ∃ v, decodeLenFrom build (encodeLen n ++ rest) i len = .ok (v, i + (encodeLen n).length) ∧
      v.toNat = len.toNat + n * 2 ^ (i * 7) := by
  induction n using Nat.strong_induction_on generalizing i len with
  | h n ih =>
    have hsplit := mul_two_pow_split n i
    have hlow : n % 128 * 2 ^ (i * 7) < 2 ^ 64 := by omega
    rw [encodeLen_eq]
    split_ifs with hlong
    · -- the high bit is set, and the rest of the length follows
      have hmod : (n % 128 + 128) % 128 = n % 128 := by omega
      obtain ⟨shifted, hshifted, hacc⟩ := shift_low build (n := n % 128 + 128) hlen hi (by omega)
        (by rw [hmod]; exact hlow)
      rw [hmod] at hacc
      have hbit : ¬(UInt8.ofNat (n % 128 + 128)) &&& 0x80 = 0 := by
        rw [high_bit (by omega)]
        omega
      have hroom : (i + 1) * 7 < 64 := by
        refine (Nat.pow_lt_pow_iff_right (a := 2) (by norm_num)).mp (lt_of_le_of_lt ?_ hn)
        rw [two_pow_next]
        exact Nat.mul_le_mul_right _ hlong
      have hbelow : (len ||| shifted).toNat < 2 ^ ((i + 1) * 7) := by
        have hle : n % 128 * 2 ^ (i * 7) ≤ 127 * 2 ^ (i * 7) :=
          Nat.mul_le_mul_right _ (by omega)
        rw [hacc, two_pow_next]
        omega
      obtain ⟨v, hv, hvalue⟩ := ih (n / 128) (by omega) hbelow hroom (by omega)
      refine ⟨v, ?_, by omega⟩
      rw [List.cons_append, decodeLenFrom, hshifted, ok_bind]
      simp only [if_neg hbit, hv, List.length_cons]
      congr 2
      omega
    · have hmod : n % 128 = n := Nat.mod_eq_of_lt (by omega)
      obtain ⟨shifted, hshifted, hacc⟩ := shift_low build (n := n) hlen hi (by omega) hlow
      rw [hmod] at hacc
      refine ⟨len ||| shifted, ?_, hacc⟩
      have hbit := (high_bit (n := n) (by omega)).mpr (by omega)
      rw [List.singleton_append, decodeLenFrom, hshifted, ok_bind]
      simp only [if_pos hbit]
      rfl

/-- A length of 64 bits is read back, without overflow in either build. -/
theorem decodeLen_encodeLen (build : Build) (n : UInt64) (rest : Bytes) :
    decodeLen build (encodeLen n.toNat ++ rest) = .ok (n, (encodeLen n.toNat).length) := by
  have hn : n.toNat * 2 ^ (0 * 7) < 2 ^ 64 := by simpa using n.toNat_lt
  have hread : ∃ v, decodeLenFrom build (encodeLen n.toNat ++ rest) 0 0 =
      .ok (v, 0 + (encodeLen n.toNat).length) ∧
        v.toNat = (0 : UInt64).toNat + n.toNat * 2 ^ (0 * 7) :=
    decodeLenFrom_encodeLen build rest (by decide) (by decide) hn
  obtain ⟨v, hv, hvalue⟩ := hread
  have heq : v = n := UInt64.toNat_inj.mp (by simpa using hvalue)
  rw [decodeLen, hv, heq, Nat.zero_add]

/-- The number that bytes hold, seven bits in each. -/
def sevenBits (bytes : Bytes) : ℕ := Nat.ofDigits 128 (bytes.map fun byte => byte.toNat % 128)

theorem sevenBits_cons (byte : UInt8) (bytes : Bytes) :
    sevenBits (byte :: bytes) = byte.toNat % 128 + 128 * sevenBits bytes := by
  rw [sevenBits, List.map_cons, Nat.ofDigits_cons]
  rfl

/-- At most nine bytes, of which only the last has its high bit clear, hold the
length that is read from them. -/
theorem decodeLenFrom_bytes (build : Build) {init : Bytes} {last : UInt8} (rest : Bytes)
    (hinit : ∀ byte ∈ init, byte &&& 0x80 ≠ 0) (hlast : last &&& 0x80 = 0)
    (hlen : len.toNat < 2 ^ (i * 7)) (hroom : (i + init.length + 1) * 7 ≤ 64) :
    ∃ v, decodeLenFrom build (init ++ last :: rest) i len = .ok (v, i + init.length + 1) ∧
      v.toNat = len.toNat + sevenBits (init ++ [last]) * 2 ^ (i * 7) := by
  have hbits : ∀ (byte : UInt8) (i : ℕ) (len : UInt64), len.toNat < 2 ^ (i * 7) →
      (i + 1) * 7 ≤ 64 → ∃ shifted,
        shlU64 build (byte &&& 0x7F).toUInt64 (i * 7) = .ok shifted ∧
        (len ||| shifted).toNat = len.toNat + byte.toNat % 128 * 2 ^ (i * 7) := by
    intro byte i len hlen hi
    have hfits : byte.toNat % 128 * 2 ^ (i * 7) < 2 ^ 64 := by
      refine lt_of_lt_of_le ?_ (Nat.pow_le_pow_right (by decide : 0 < 2) hi)
      rw [two_pow_next]
      exact Nat.mul_lt_mul_of_pos_right (Nat.mod_lt _ (by decide)) (Nat.two_pow_pos _)
    have hshift := shift_low build hlen (by omega) byte.toNat_lt hfits
    rwa [UInt8.ofNat_toNat] at hshift
  -- induction on the bytes before the last, the length read so far below the next bits
  induction init generalizing i len with
  | nil =>
    obtain ⟨shifted, hshifted, hvalue⟩ := hbits last i len hlen hroom
    refine ⟨len ||| shifted, ?_, ?_⟩
    · rw [List.nil_append, decodeLenFrom, hshifted, ok_bind]
      exact if_pos hlast
    · rw [hvalue, List.nil_append, sevenBits_cons]
      rfl
  | cons byte init ih =>
    obtain ⟨hbyte, hinit⟩ := List.forall_mem_cons.mp hinit
    rw [List.length_cons] at hroom
    obtain ⟨shifted, hshifted, hvalue⟩ := hbits byte i len hlen (by omega)
    have hbelow : (len ||| shifted).toNat < 2 ^ ((i + 1) * 7) := by
      have hlow : byte.toNat % 128 * 2 ^ (i * 7) ≤ 127 * 2 ^ (i * 7) :=
        Nat.mul_le_mul_right _ (by omega)
      rw [hvalue, two_pow_next]
      omega
    obtain ⟨v, hv, hsum⟩ := ih hinit hbelow (by omega)
    refine ⟨v, ?_, ?_⟩
    · rw [List.cons_append, decodeLenFrom, hshifted, ok_bind]
      simp only [if_neg hbyte, hv, List.length_cons]
      congr 2
      omega
    · rw [hsum, hvalue, List.cons_append, sevenBits_cons, two_pow_next, Nat.add_mul]
      ring

/-- A length ends with the first byte whose high bit is clear, or with the
bytes. -/
theorem decodeLenFrom_takes {build : Build} {bytes : Bytes} {count : UInt64}
    (h : decodeLenFrom build bytes i len = .ok (count, n)) :
    n = bytes.length + i ∨ ∃ init last rest, bytes = init ++ last :: rest ∧
      n = i + init.length + 1 ∧ (∀ byte ∈ init, byte &&& 0x80 ≠ 0) ∧ last &&& 0x80 = 0 := by
  induction bytes generalizing i len with
  | nil =>
    cases h
    exact .inl (Nat.zero_add _).symm
  | cons byte bytes ih =>
    obtain ⟨shifted, -, h⟩ := bind_eq_ok.mp h
    split_ifs at h with hlast
    · cases h
      exact .inr ⟨[], byte, bytes, rfl, rfl, by simp, hlast⟩
    · rcases ih h with hend | ⟨init, last, rest, rfl, hn, hinit, hclear⟩
      · left
        rw [List.length_cons, hend]
        omega
      · refine .inr ⟨byte :: init, last, rest, rfl, ?_, ?_, hclear⟩
        · rw [List.length_cons, hn]
          omega
        · exact List.forall_mem_cons.mpr ⟨hlast, hinit⟩

end Decode

end Sg32.ShortVec
