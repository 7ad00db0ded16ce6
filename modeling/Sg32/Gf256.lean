/-
Arithmetic in GF(2^8) by logarithm tables (`gf256.rs`).

The field is the one of the primitive polynomial 0x11D: addition is XOR, and
`gfMul`, `gfInv` go through the hard-coded tables `LOG` and `ALOG`.

* `alog_eq_iterate` — the antilogarithm table is repeated doubling;
* `alog_log`, `log_alog` — the two tables are inverse on the nonzero bytes;
* `gfMul_xor` — multiplication distributes over XOR, through doubling;
* `GF256` — the bytes with these operations, a field.
-/
import Mathlib.Algebra.Field.MinimalAxioms
import Mathlib.Data.Fintype.EquivFin
import Mathlib.Data.List.Iterate
import Mathlib.Tactic.Ring
import Sg32.Foundation.Bytes

namespace Sg32

set_option maxRecDepth 8000 in
/-- The exponent of each nonzero byte as a power of 2; `LOG[0]` is a filler. -/
def LOG : Vector UInt8 256 :=
  ⟨⟨[0, 0, 1, 25, 2, 50, 26, 198, 3, 223, 51, 238, 27, 104, 199, 75,
    4, 100, 224, 14, 52, 141, 239, 129, 28, 193, 105, 248, 200, 8, 76, 113,
    5, 138, 101, 47, 225, 36, 15, 33, 53, 147, 142, 218, 240, 18, 130, 69,
    29, 181, 194, 125, 106, 39, 249, 185, 201, 154, 9, 120, 77, 228, 114, 166,
    6, 191, 139, 98, 102, 221, 48, 253, 226, 152, 37, 179, 16, 145, 34, 136,
    54, 208, 148, 206, 143, 150, 219, 189, 241, 210, 19, 92, 131, 56, 70, 64,
    30, 66, 182, 163, 195, 72, 126, 110, 107, 58, 40, 84, 250, 133, 186, 61,
    202, 94, 155, 159, 10, 21, 121, 43, 78, 212, 229, 172, 115, 243, 167, 87,
    7, 112, 192, 247, 140, 128, 99, 13, 103, 74, 222, 237, 49, 197, 254, 24,
    227, 165, 153, 119, 38, 184, 180, 124, 17, 68, 146, 217, 35, 32, 137, 46,
    55, 63, 209, 91, 149, 188, 207, 205, 144, 135, 151, 178, 220, 252, 190, 97,
    242, 86, 211, 171, 20, 42, 93, 158, 132, 60, 57, 83, 71, 109, 65, 162,
    31, 45, 67, 216, 183, 123, 164, 118, 196, 23, 73, 236, 127, 12, 111, 246,
    108, 161, 59, 82, 41, 157, 85, 170, 251, 96, 134, 177, 187, 204, 62, 90,
    203, 89, 95, 176, 156, 169, 160, 81, 11, 245, 22, 235, 122, 117, 44, 215,
    79, 174, 213, 233, 230, 231, 173, 232, 116, 214, 244, 234, 168, 80, 88, 175]⟩, rfl⟩

set_option maxRecDepth 8000 in
/-- The powers of 2, from `2^0` to `2^255 = 1`. -/
def ALOG : Vector UInt8 256 :=
  ⟨⟨[1, 2, 4, 8, 16, 32, 64, 128, 29, 58, 116, 232, 205, 135, 19, 38,
    76, 152, 45, 90, 180, 117, 234, 201, 143, 3, 6, 12, 24, 48, 96, 192,
    157, 39, 78, 156, 37, 74, 148, 53, 106, 212, 181, 119, 238, 193, 159, 35,
    70, 140, 5, 10, 20, 40, 80, 160, 93, 186, 105, 210, 185, 111, 222, 161,
    95, 190, 97, 194, 153, 47, 94, 188, 101, 202, 137, 15, 30, 60, 120, 240,
    253, 231, 211, 187, 107, 214, 177, 127, 254, 225, 223, 163, 91, 182, 113, 226,
    217, 175, 67, 134, 17, 34, 68, 136, 13, 26, 52, 104, 208, 189, 103, 206,
    129, 31, 62, 124, 248, 237, 199, 147, 59, 118, 236, 197, 151, 51, 102, 204,
    133, 23, 46, 92, 184, 109, 218, 169, 79, 158, 33, 66, 132, 21, 42, 84,
    168, 77, 154, 41, 82, 164, 85, 170, 73, 146, 57, 114, 228, 213, 183, 115,
    230, 209, 191, 99, 198, 145, 63, 126, 252, 229, 215, 179, 123, 246, 241, 255,
    227, 219, 171, 75, 150, 49, 98, 196, 149, 55, 110, 220, 165, 87, 174, 65,
    130, 25, 50, 100, 200, 141, 7, 14, 28, 56, 112, 224, 221, 167, 83, 166,
    81, 162, 89, 178, 121, 242, 249, 239, 195, 155, 43, 86, 172, 69, 138, 9,
    18, 36, 72, 144, 61, 122, 244, 245, 247, 243, 251, 235, 203, 139, 11, 22,
    44, 88, 176, 125, 250, 233, 207, 131, 27, 54, 108, 216, 173, 71, 142, 1]⟩, rfl⟩

def gfAdd (a b : UInt8) : UInt8 := a ^^^ b

def gfSub (a b : UInt8) : UInt8 := a ^^^ b

def gfMul (a b : UInt8) : UInt8 :=
  if a = 0 ∨ b = 0 then 0
  else
    let log_sum := (LOG.get ⟨a.toNat, a.toNat_lt⟩).toNat + (LOG.get ⟨b.toNat, b.toNat_lt⟩).toNat
    ALOG.get ⟨log_sum % 255, by omega⟩

def gfInv (a : UInt8) : UInt8 :=
  if a = 0 then 0
  else ALOG.get ⟨255 - (LOG.get ⟨a.toNat, a.toNat_lt⟩).toNat, by omega⟩

/-! ### The tables -/

/-- The exponent of a byte. -/
def log (a : UInt8) : ℕ := (LOG.get ⟨a.toNat, a.toNat_lt⟩).toNat

/-- The power of 2 with a given exponent. -/
def alog (k : ℕ) : UInt8 := ALOG.get ⟨k % 255, by omega⟩

/-- Multiplication by 2: shift, and reduce by 0x11D on overflow. -/
def double (a : UInt8) : UInt8 := (a <<< 1) ^^^ (if a &&& 0x80 = 0 then 0 else 0x1D)

private theorem alog_table : ALOG.toList = List.iterate double 1 256 := by decide +kernel

private theorem log_table : (ALOG.toList.take 255).map log = List.range 255 := by
  decide +kernel

theorem alog_get {k : ℕ} (hk : k < 256) : ALOG.get ⟨k, hk⟩ = double^[k] 1 := by
  have h : ALOG.toList[k]? = (List.iterate double 1 256)[k]? := by rw [alog_table]
  rw [List.getElem?_iterate double 1 256 k hk, Vector.getElem?_toList,
    Vector.getElem?_eq_getElem hk] at h
  exact Option.some_inj.mp h

/-- Doubling 255 times is the identity on the powers of 2. -/
theorem double_iterate_255 : double^[255] 1 = 1 := by
  rw [← alog_get (by decide)]
  decide +kernel

theorem alog_eq_iterate (k : ℕ) : alog k = double^[k] 1 := by
  rw [alog, alog_get]
  conv_rhs => rw [← Nat.mod_add_div k 255, Function.iterate_add_apply, Function.iterate_mul,
    Function.iterate_fixed double_iterate_255]

theorem alog_mod (k : ℕ) : alog (k % 255) = alog k := by
  simp only [alog, Nat.mod_mod]

theorem log_alog (k : ℕ) : log (alog k) = k % 255 := by
  have hk : k % 255 < 255 := Nat.mod_lt _ (by decide)
  have h : ((ALOG.toList.take 255).map log)[k % 255]? = (List.range 255)[k % 255]? := by
    rw [log_table]
  rw [List.getElem?_map, List.getElem?_take_of_lt hk, List.getElem?_range hk,
    Vector.getElem?_toList, Vector.getElem?_eq_getElem (by omega)] at h
  exact Option.some_inj.mp h

theorem alog_ne_zero (k : ℕ) : alog k ≠ 0 := by
  intro h
  have hnext : alog (k + 1) = 0 := by
    rw [alog_eq_iterate, Function.iterate_succ_apply', ← alog_eq_iterate, h]
    decide
  have hlog : k % 255 = (k + 1) % 255 := by rw [← log_alog, ← log_alog, h, hnext]
  omega

/-- Every nonzero byte is a power of 2: the 255 powers are different. -/
theorem exists_alog {a : UInt8} (ha : a ≠ 0) : ∃ k, k < 255 ∧ alog k = a := by
  let f : Fin 255 → {x : Fin 256 // x ≠ 0} := fun k =>
    ⟨(alog k).toFin, fun h => alog_ne_zero k (UInt8.toFin_inj.mp h)⟩
  have hf : Function.Injective f := by
    intro i j hij
    have h : alog i = alog j := UInt8.toFin_inj.mp (Subtype.mk.inj hij)
    have hlog := congrArg log h
    rw [log_alog, log_alog, Nat.mod_eq_of_lt i.isLt, Nat.mod_eq_of_lt j.isLt] at hlog
    exact Fin.ext hlog
  have hcard : Fintype.card (Fin 255) = Fintype.card {x : Fin 256 // x ≠ 0} := by
    rw [Fintype.card_subtype_compl]
    simp
  obtain ⟨k, hk⟩ := ((Fintype.bijective_iff_injective_and_card f).mpr ⟨hf, hcard⟩).2
    ⟨a.toFin, fun h => ha (UInt8.toFin_inj.mp h)⟩
  exact ⟨k, k.isLt, UInt8.toFin_inj.mp (congrArg Subtype.val hk)⟩

theorem alog_log {a : UInt8} (ha : a ≠ 0) : alog (log a) = a := by
  obtain ⟨k, hk, rfl⟩ := exists_alog ha
  rw [log_alog, alog_mod]

theorem log_lt (a : UInt8) : log a < 255 := by
  by_cases ha : a = 0
  · subst ha
    decide
  · obtain ⟨k, hk, rfl⟩ := exists_alog ha
    rw [log_alog]
    exact Nat.mod_lt _ (by decide)

/-! ### Multiplication -/

@[simp] theorem gfMul_zero (a : UInt8) : gfMul a 0 = 0 := by simp [gfMul]

@[simp] theorem zero_gfMul (a : UInt8) : gfMul 0 a = 0 := by simp [gfMul]

theorem gfMul_of_ne_zero {a b : UInt8} (ha : a ≠ 0) (hb : b ≠ 0) :
    gfMul a b = alog (log a + log b) := by
  rw [gfMul, if_neg (by simp [ha, hb])]
  rfl

theorem gfMul_comm (a b : UInt8) : gfMul a b = gfMul b a := by
  by_cases ha : a = 0
  · simp [ha]
  by_cases hb : b = 0
  · simp [hb]
  rw [gfMul_of_ne_zero ha hb, gfMul_of_ne_zero hb ha, Nat.add_comm]

theorem gfMul_alog (i j : ℕ) : gfMul (alog i) (alog j) = alog (i + j) := by
  rw [gfMul_of_ne_zero (alog_ne_zero i) (alog_ne_zero j), log_alog, log_alog,
    ← alog_mod, ← Nat.add_mod, alog_mod]

theorem gfMul_assoc (a b c : UInt8) : gfMul (gfMul a b) c = gfMul a (gfMul b c) := by
  by_cases ha : a = 0
  · simp [ha]
  by_cases hb : b = 0
  · simp [hb]
  by_cases hc : c = 0
  · simp [hc]
  rw [← alog_log ha, ← alog_log hb, ← alog_log hc]
  simp only [gfMul_alog, Nat.add_assoc]

theorem one_eq_alog : (1 : UInt8) = alog 0 := by decide

theorem one_gfMul (a : UInt8) : gfMul 1 a = a := by
  by_cases ha : a = 0
  · simp [ha]
  rw [one_eq_alog]
  conv_lhs => rw [← alog_log ha]
  rw [gfMul_alog, Nat.zero_add, alog_log ha]

theorem gfInv_of_ne_zero {a : UInt8} (ha : a ≠ 0) : gfInv a = alog (255 - log a) := by
  rw [gfInv, if_neg ha, alog_get, alog_eq_iterate]
  rfl

theorem gfMul_gfInv {a : UInt8} (ha : a ≠ 0) : gfMul a (gfInv a) = 1 := by
  have hlt := log_lt a
  rw [gfInv_of_ne_zero ha]
  conv_lhs => rw [← alog_log ha]
  rw [gfMul_alog, log_alog, Nat.mod_eq_of_lt hlt, Nat.add_sub_cancel' hlt.le, one_eq_alog]
  exact (alog_mod 255).symm

/-! ### Distributivity

Multiplying by `2^i` is doubling `i` times, and doubling commutes with XOR. -/

private theorem top_bit (a : UInt8) : a &&& 0x80 = 0 ∨ a &&& 0x80 = 0x80 := by
  have h : ∀ k : Fin 256, UInt8.ofFin k &&& 0x80 = 0 ∨ UInt8.ofFin k &&& 0x80 = 0x80 := by
    decide +kernel
  simpa using h a.toFin

private theorem xor_and (a b c : UInt8) : (a ^^^ b) &&& c = (a &&& c) ^^^ (b &&& c) :=
  UInt8.toBitVec_inj.mp (by ext i; simp [Bool.and_xor_distrib_right])

theorem double_xor (a b : UInt8) : double (a ^^^ b) = double a ^^^ double b := by
  have swap : ∀ x y z : UInt8, x ^^^ (y ^^^ z) = y ^^^ (x ^^^ z) := fun x y z => by
    rw [← UInt8.xor_assoc, UInt8.xor_comm x, UInt8.xor_assoc]
  have cancel : ∀ x y : UInt8, x ^^^ (x ^^^ y) = y := fun x y => by
    rw [← UInt8.xor_assoc, UInt8.xor_self, UInt8.zero_xor]
  simp only [double, UInt8.shiftLeft_xor, xor_and]
  rcases top_bit a with ha | ha <;> rcases top_bit b with hb | hb <;>
    simp [ha, hb, UInt8.xor_assoc, UInt8.xor_comm _ (29 : UInt8), swap, cancel]

theorem double_iterate_zero (i : ℕ) : double^[i] 0 = 0 :=
  Function.iterate_fixed (by decide) i

theorem double_iterate_xor (i : ℕ) (a b : UInt8) :
    double^[i] (a ^^^ b) = double^[i] a ^^^ double^[i] b := by
  induction i generalizing a b with
  | zero => rfl
  | succ i ih => rw [Function.iterate_succ_apply, double_xor, ih]; rfl

theorem gfMul_alog_eq_iterate (i : ℕ) (b : UInt8) : gfMul (alog i) b = double^[i] b := by
  by_cases hb : b = 0
  · rw [hb, gfMul_zero, double_iterate_zero]
  rw [← alog_log hb, gfMul_alog, alog_eq_iterate, alog_eq_iterate, Function.iterate_add_apply]

theorem gfMul_xor (a b c : UInt8) : gfMul a (b ^^^ c) = gfMul a b ^^^ gfMul a c := by
  by_cases ha : a = 0
  · simp [ha]
  rw [← alog_log ha]
  simp only [gfMul_alog_eq_iterate]
  exact double_iterate_xor _ b c

/-! ### The field -/

/-- The bytes as elements of GF(2^8). -/
@[ext] structure GF256 where
  byte : UInt8
  deriving DecidableEq

namespace GF256

instance : Zero GF256 := ⟨⟨0⟩⟩
instance : One GF256 := ⟨⟨1⟩⟩
instance : Add GF256 := ⟨fun a b => ⟨gfAdd a.byte b.byte⟩⟩
instance : Neg GF256 := ⟨id⟩
instance : Mul GF256 := ⟨fun a b => ⟨gfMul a.byte b.byte⟩⟩
instance : Inv GF256 := ⟨fun a => ⟨gfInv a.byte⟩⟩

instance : Field GF256 :=
  Field.ofMinimalAxioms GF256
    (fun a b c => GF256.ext (UInt8.xor_assoc a.byte b.byte c.byte))
    (fun a => GF256.ext UInt8.zero_xor)
    (fun _ => GF256.ext UInt8.xor_self)
    (fun a b c => GF256.ext (gfMul_assoc a.byte b.byte c.byte))
    (fun a b => GF256.ext (gfMul_comm a.byte b.byte))
    (fun a => GF256.ext (one_gfMul a.byte))
    (fun a ha => GF256.ext (gfMul_gfInv fun h => ha (GF256.ext h)))
    (GF256.ext (by decide))
    (fun a b c => GF256.ext (gfMul_xor a.byte b.byte c.byte))
    ⟨0, 1, fun h => absurd (congrArg GF256.byte h) (by decide)⟩

theorem mk_zero : (⟨0⟩ : GF256) = 0 := rfl

theorem mk_one : (⟨1⟩ : GF256) = 1 := rfl

theorem mk_gfAdd (a b : UInt8) : (⟨gfAdd a b⟩ : GF256) = ⟨a⟩ + ⟨b⟩ := rfl

theorem mk_gfMul (a b : UInt8) : (⟨gfMul a b⟩ : GF256) = ⟨a⟩ * ⟨b⟩ := rfl

theorem mk_gfInv (a : UInt8) : (⟨gfInv a⟩ : GF256) = ⟨a⟩⁻¹ := rfl

theorem mk_gfSub (a b : UInt8) : (⟨gfSub a b⟩ : GF256) = ⟨a⟩ - ⟨b⟩ := rfl

/-- Two bytes add up to zero exactly when they are equal. -/
theorem add_eq_zero_iff {a b : GF256} : a + b = 0 ↔ a = b :=
  add_eq_zero_iff_eq_neg

end GF256

end Sg32
