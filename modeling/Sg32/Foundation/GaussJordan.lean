/-
Gauss–Jordan elimination on a matrix and its record.

Elimination runs on a pair `(L, R)` that starts at `(M, 1)`; both halves take
the same row operations.  One column of the loop is a `rowStep`: swap a pivot
row into place, scale it, and subtract multiples of it from the other rows.

* `Progress M L R k` — the loop invariant after `k` columns: `L = R * M`, the
  operations recorded in `R` lose nothing, and the first `k` columns of `L`
  are those of the identity;
* `Progress.step` — a step with a nonzero pivot extends it by a column;
* `Progress.det_eq_zero` — a column without pivot exhibits a kernel vector;
* `Progress.inverse` — after all columns, `R` is the inverse of `M`.
-/
import Mathlib.LinearAlgebra.Matrix.NonsingularInverse
import Mathlib.LinearAlgebra.Matrix.ToLinearEquiv

namespace GaussJordan

open Matrix

variable {F : Type*} [Field F] {n : ℕ} {m : Type*}

/-- Swap rows `c` and `p`, scale row `c` by `s`, and subtract `f i` times it
from every other row `i`. -/
def rowStep (c p : Fin n) (s : F) (f : Fin n → F) (A : Matrix (Fin n) m F) :
    Matrix (Fin n) m F :=
  fun i j => if i = c then s * A p j else A (Equiv.swap c p i) j - f i * (s * A p j)

theorem rowStep_mul (c p : Fin n) (s : F) (f : Fin n → F)
    (A : Matrix (Fin n) (Fin n) F) (B : Matrix (Fin n) m F) :
    rowStep c p s f (A * B) = rowStep c p s f A * B := by
  ext i j
  simp only [rowStep, Matrix.mul_apply]
  split_ifs
  · rw [Finset.mul_sum]
    exact Finset.sum_congr rfl fun k _ => by ring
  · rw [Finset.mul_sum, Finset.mul_sum, ← Finset.sum_sub_distrib]
    exact Finset.sum_congr rfl fun k _ => by ring

theorem rowStep_mulVec (c p : Fin n) (s : F) (f : Fin n → F)
    (A : Matrix (Fin n) (Fin n) F) (v : Fin n → F) (i : Fin n) :
    (rowStep c p s f A *ᵥ v) i =
      if i = c then s * (A *ᵥ v) p
      else (A *ᵥ v) (Equiv.swap c p i) - f i * (s * (A *ᵥ v) p) := by
  have h := congrFun (congrFun (rowStep_mul c p s f A (Matrix.of fun j (_ : Unit) => v j)) i) ()
  simpa only [rowStep, Matrix.mul_apply, Matrix.of_apply, mulVec, dotProduct] using h.symm

/-- A row step with a nonzero scale has no kernel of its own. -/
theorem mulVec_eq_zero_of_rowStep {c p : Fin n} {s : F} (hs : s ≠ 0) {f : Fin n → F}
    {A : Matrix (Fin n) (Fin n) F} {v : Fin n → F}
    (h : rowStep c p s f A *ᵥ v = 0) : A *ᵥ v = 0 := by
  have hp : (A *ᵥ v) p = 0 := by
    have hc := congrFun h c
    rw [rowStep_mulVec, if_pos rfl] at hc
    exact (mul_eq_zero.mp hc).resolve_left hs
  -- the other rows only lost a multiple of the pivot row, which is zero
  have hother : ∀ i, i ≠ c → (A *ᵥ v) (Equiv.swap c p i) = 0 := by
    intro i hi
    have hi' := congrFun h i
    rw [rowStep_mulVec, if_neg hi, hp] at hi'
    simpa using hi'
  funext k
  by_cases hk : Equiv.swap c p k = c
  · rw [Equiv.swap_apply_eq_iff, Equiv.swap_apply_left] at hk
    rw [hk]
    exact hp
  · simpa using hother _ hk

/-- The loop invariant: `R` records the row operations that turned `M` into
`L`, and the first `k` columns of `L` are done. -/
structure Progress (M L R : Matrix (Fin n) (Fin n) F) (k : ℕ) : Prop where
  factor : L = R * M
  injective : ∀ v, R *ᵥ v = 0 → v = 0
  reduced : ∀ i j : Fin n, j.val < k → L i j = if i = j then 1 else 0

namespace Progress

variable {M L R : Matrix (Fin n) (Fin n) F} {k : ℕ}

theorem init (M : Matrix (Fin n) (Fin n) F) : Progress M M 1 0 where
  factor := (one_mul M).symm
  injective v hv := by simpa using hv
  reduced i j hj := absurd hj (Nat.not_lt_zero _)

/-- Eliminating with a nonzero pivot at or below the diagonal finishes the
next column. -/
theorem step (h : Progress M L R k) {c p : Fin n} (hc : c.val = k) (hp : k ≤ p.val)
    (hpivot : L p c ≠ 0) :
    Progress M (rowStep c p (L p c)⁻¹ (fun i => L (Equiv.swap c p i) c) L)
      (rowStep c p (L p c)⁻¹ (fun i => L (Equiv.swap c p i) c) R) (k + 1) where
  factor := by rw [← rowStep_mul, ← h.factor]
  injective v hv := h.injective v (mulVec_eq_zero_of_rowStep (inv_ne_zero hpivot) hv)
  reduced i j hj := by
    simp only [rowStep]
    rcases Nat.lt_succ_iff_lt_or_eq.mp hj with hlt | heq
    · -- an earlier column: the pivot row is zero there, and no row moves into it
      have hpj : L p j = 0 := by
        rw [h.reduced p j hlt, if_neg (by rintro rfl; omega)]
      rw [hpj, mul_zero, mul_zero, sub_zero]
      have hcj : j ≠ c := by rintro rfl; omega
      have hpj' : j ≠ p := by rintro rfl; omega
      split_ifs with hi hij hij
      · exact absurd (hij.symm.trans hi) hcj
      · rfl
      · rw [hij, Equiv.swap_apply_of_ne_of_ne hcj hpj', h.reduced j j hlt, if_pos rfl]
      · rw [h.reduced _ j hlt, if_neg]
        intro hswap
        rw [Equiv.swap_apply_eq_iff, Equiv.swap_apply_of_ne_of_ne hcj hpj'] at hswap
        exact hij hswap
    · -- the new column
      have hjc : j = c := Fin.ext (by omega)
      subst hjc
      rw [inv_mul_cancel₀ hpivot]
      split_ifs <;> simp

/-- The vector that a column without pivot contributes to the kernel. -/
def kernelVector (L : Matrix (Fin n) (Fin n) F) (c : Fin n) : Fin n → F :=
  fun j => if j.val < c.val then L j c else if j = c then -1 else 0

theorem mulVec_kernelVector (h : Progress M L R k) {c : Fin n} (hc : c.val = k)
    (hzero : ∀ i : Fin n, k ≤ i.val → L i c = 0) : L *ᵥ kernelVector L c = 0 := by
  funext i
  -- the reduced columns pick out one entry each, column `c` cancels it
  have hterm : ∀ j, L i j * kernelVector L c j =
      (if j = i then (if j.val < k then L j c else 0) else 0)
        - (if j = c then L i j else 0) := by
    intro j
    simp only [kernelVector, hc]
    by_cases hjk : j.val < k
    · have hjc : j ≠ c := by rintro rfl; omega
      rw [h.reduced i j hjk, if_pos hjk, if_neg hjc, if_pos hjk, sub_zero]
      by_cases hij : i = j
      · rw [if_pos hij, if_pos hij.symm, one_mul]
      · rw [if_neg hij, if_neg (Ne.symm hij), zero_mul]
    · rw [if_neg hjk, if_neg hjk, ite_self, zero_sub]
      by_cases hjc : j = c
      · rw [if_pos hjc, if_pos hjc, mul_neg, mul_one]
      · rw [if_neg hjc, if_neg hjc, mul_zero, neg_zero]
  rw [mulVec, dotProduct, Finset.sum_congr rfl fun j _ => hterm j, Finset.sum_sub_distrib,
    Finset.sum_ite_eq' _ i, Finset.sum_ite_eq' _ c]
  simp only [Finset.mem_univ, if_true, Pi.zero_apply]
  split_ifs with hik
  · exact sub_self _
  · rw [hzero i (by omega), sub_zero]

/-- A column without pivot: the matrix is singular. -/
theorem det_eq_zero (h : Progress M L R k) {c : Fin n} (hc : c.val = k)
    (hzero : ∀ i : Fin n, k ≤ i.val → L i c = 0) : M.det = 0 := by
  rw [← exists_mulVec_eq_zero_iff]
  refine ⟨kernelVector L c, ?_, h.injective _ ?_⟩
  · intro h0
    have hcc := congrFun h0 c
    simp [kernelVector] at hcc
  · rw [mulVec_mulVec, ← h.factor]
    exact h.mulVec_kernelVector hc hzero

/-- All columns done: the record is the inverse. -/
theorem inverse (h : Progress M L R n) : R * M = 1 := by
  rw [← h.factor]
  ext i j
  rw [h.reduced i j j.isLt, Matrix.one_apply]

end Progress

end GaussJordan
