/-
Systematic Cauchy codes (maximum distance separable).

A systematic code sends `n` symbols as themselves, rows `0 … n-1`, and as
parity rows `n + q` with the Cauchy weights `1 / (x q + y j)`.

* `eq_zero_of_cauchy_sums` — weights `v` whose Cauchy sums vanish at as many
  points as there are poles are zero (clear denominators and count roots);
* `generatorRow`, `selectedRows` — the rows of the code and a choice of `n`;
* `det_cauchy_ne_zero` — square Cauchy matrices can be inverted;
* `selectedRows_injective` — any `n` different rows determine the symbols.
-/
import Mathlib.LinearAlgebra.Lagrange
import Mathlib.LinearAlgebra.Matrix.ToLinearEquiv

namespace CauchyCode

open Polynomial Matrix

variable {F : Type*} [Field F]

section Poles

variable {ι : Type*} [DecidableEq ι]

/-- The numerator of `∑ v j / (X + y j)` over the common denominator. -/
noncomputable def numerator (S : Finset ι) (v y : ι → F) : F[X] :=
  ∑ j ∈ S, C (v j) * ∏ k ∈ S.erase j, (X + C (y k))

theorem eval_numerator (S : Finset ι) (v y : ι → F) (x : F)
    (hne : ∀ j ∈ S, x + y j ≠ 0) :
    (numerator S v y).eval x = (∏ j ∈ S, (x + y j)) * ∑ j ∈ S, v j * (x + y j)⁻¹ := by
  rw [numerator, eval_finsetSum, Finset.mul_sum]
  refine Finset.sum_congr rfl ?_
  intro j hj
  rw [eval_mul, eval_C, eval_prod, ← Finset.mul_prod_erase S _ hj]
  simp only [eval_add, eval_X, eval_C]
  field_simp [hne j hj]

/-- At a pole only the term of that pole survives. -/
theorem eval_numerator_pole (S : Finset ι) (v y : ι → F) {j : ι} (hj : j ∈ S) :
    (numerator S v y).eval (-y j) = v j * ∏ k ∈ S.erase j, (y k - y j) := by
  rw [numerator, eval_finsetSum, Finset.sum_eq_single_of_mem j hj]
  · rw [eval_mul, eval_C, eval_prod]
    congr 1
    exact Finset.prod_congr rfl fun k _ => by
      rw [eval_add, eval_X, eval_C]
      ring
  · intro i _ hij
    rw [eval_mul, eval_prod, Finset.prod_eq_zero (Finset.mem_erase.mpr ⟨hij.symm, hj⟩),
      mul_zero]
    rw [eval_add, eval_X, eval_C, neg_add_cancel]

theorem degree_numerator_lt (S : Finset ι) (v y : ι → F) (hS : S.Nonempty) :
    (numerator S v y).degree < S.card := by
  have hcard : 0 < S.card := hS.card_pos
  rw [degree_lt_iff_coeff_zero]
  intro d hd
  rw [numerator, finsetSum_coeff]
  refine Finset.sum_eq_zero ?_
  intro j hj
  rw [coeff_C_mul, coeff_eq_zero_of_natDegree_lt, mul_zero]
  refine lt_of_le_of_lt (natDegree_prod_le _ _) ?_
  simp only [natDegree_X_add_C, Finset.sum_const, smul_eq_mul, mul_one]
  rw [Finset.card_erase_of_mem hj]
  omega

/-- Cauchy sums that vanish at as many points as there are distinct poles
have no weights. -/
theorem eq_zero_of_cauchy_sums {S : Finset ι} {v y : ι → F} {T : Finset F}
    (hy : Set.InjOn y S) (hcard : S.card ≤ T.card)
    (hne : ∀ x ∈ T, ∀ j ∈ S, x + y j ≠ 0)
    (hsum : ∀ x ∈ T, ∑ j ∈ S, v j * (x + y j)⁻¹ = 0) {j : ι} (hj : j ∈ S) : v j = 0 := by
  have hzero : numerator S v y = 0 := by
    refine eq_zero_of_degree_lt_of_eval_finset_eq_zero T
      (lt_of_lt_of_le (degree_numerator_lt S v y ⟨j, hj⟩) (by exact_mod_cast hcard)) ?_
    intro x hx
    rw [eval_numerator S v y x (hne x hx), hsum x hx, mul_zero]
  have hpole := eval_numerator_pole S v y hj
  rw [hzero, eval_zero] at hpole
  refine (mul_eq_zero.mp hpole.symm).resolve_right ?_
  refine Finset.prod_ne_zero_iff.mpr ?_
  intro k hk
  obtain ⟨hkj, hkS⟩ := Finset.mem_erase.mp hk
  exact sub_ne_zero.mpr fun h => hkj (hy hkS hj h)

end Poles

variable {n : ℕ}

/-- A square Cauchy matrix can be inverted when its points are distinct, its
poles are distinct, and no point is a pole. -/
theorem det_cauchy_ne_zero {x y : Fin n → F} (hx : Function.Injective x)
    (hy : Function.Injective y) (hne : ∀ i j, x i + y j ≠ 0) :
    (Matrix.of fun i j => (x i + y j)⁻¹).det ≠ 0 := by
  classical
  rw [Ne, ← exists_mulVec_eq_zero_iff]
  rintro ⟨v, hv, hzero⟩
  refine hv (funext fun j => ?_)
  refine eq_zero_of_cauchy_sums (S := Finset.univ) (T := Finset.univ.image x) hy.injOn ?_ ?_ ?_
    (Finset.mem_univ j)
  · rw [Finset.card_image_of_injective _ hx]
  · intro x' hx' i _
    obtain ⟨k, -, rfl⟩ := Finset.mem_image.mp hx'
    exact hne k i
  · intro x' hx'
    obtain ⟨k, -, rfl⟩ := Finset.mem_image.mp hx'
    refine Eq.trans ?_ (congrFun hzero k)
    exact Finset.sum_congr rfl fun i _ => mul_comm _ _

/-- Row `idx` of the code: symbol `idx` itself, or parity row `idx - n`. -/
def generatorRow (x : ℕ → F) (y : Fin n → F) (idx : ℕ) : Fin n → F :=
  fun j => if idx < n then (if idx = j.val then 1 else 0) else (x (idx - n) + y j)⁻¹

/-- The rows named by a choice of `n` indices. -/
def selectedRows (x : ℕ → F) (y : Fin n → F) (idx : Fin n → ℕ) : Matrix (Fin n) (Fin n) F :=
  fun k => generatorRow x y (idx k)

variable {x : ℕ → F} {y : Fin n → F} {idx : Fin n → ℕ}

/-- The symbols that some selected row carries verbatim. -/
def verbatim (idx : Fin n → ℕ) : Finset (Fin n) :=
  Finset.univ.filter fun j => ∃ k, idx k = j.val

/-- The parity rows among the selected ones. -/
def parities (idx : Fin n → ℕ) : Finset (Fin n) :=
  Finset.univ.filter fun k => n ≤ idx k

theorem card_parities (hidx : Function.Injective idx) :
    (parities idx).card = (verbatim idx)ᶜ.card := by
  have hbij : (parities idx)ᶜ.card = (verbatim idx).card := by
    refine Finset.card_bij (fun k hk => ⟨idx k, ?_⟩) ?_ ?_ ?_
    · simpa [parities] using hk
    · intro k _
      exact Finset.mem_filter.mpr ⟨Finset.mem_univ _, k, rfl⟩
    · intro k _ l _ hkl
      exact hidx (Fin.mk.inj_iff.mp hkl)
    · intro j hj
      obtain ⟨k, hk⟩ := (Finset.mem_filter.mp hj).2
      exact ⟨k, by simp [parities, hk], Fin.ext hk⟩
  have h1 := Finset.card_add_card_compl (parities idx)
  have h2 := Finset.card_add_card_compl (verbatim idx)
  omega

theorem mulVec_selectedRows_verbatim (v : Fin n → F) {j k : Fin n} (h : idx k = j.val) :
    (selectedRows x y idx *ᵥ v) k = v j := by
  simp only [mulVec, dotProduct, selectedRows, generatorRow, h, j.isLt, if_true]
  rw [Finset.sum_eq_single j]
  · simp
  · intro i _ hij
    rw [if_neg (fun he => hij (Fin.ext he.symm)), zero_mul]
  · exact fun hj => absurd (Finset.mem_univ j) hj

theorem mulVec_selectedRows_parity (v : Fin n → F) {k : Fin n} (h : n ≤ idx k) :
    (selectedRows x y idx *ᵥ v) k = ∑ j, v j * (x (idx k - n) + y j)⁻¹ := by
  simp only [mulVec, dotProduct, selectedRows, generatorRow, Nat.not_lt.mpr h, if_false]
  exact Finset.sum_congr rfl fun j _ => mul_comm _ _

/-- **Any `n` different rows determine the symbols**, when the points of the
parity rows used are distinct from each other and from the poles. -/
theorem selectedRows_injective (hidx : Function.Injective idx) (hy : Function.Injective y)
    (hx : ∀ k ∈ parities idx, ∀ l ∈ parities idx, x (idx k - n) = x (idx l - n) → k = l)
    (hne : ∀ k ∈ parities idx, ∀ j, x (idx k - n) + y j ≠ 0)
    {v : Fin n → F} (hv : selectedRows x y idx *ᵥ v = 0) : v = 0 := by
  classical
  have hverb : ∀ j ∈ verbatim idx, v j = 0 := by
    intro j hj
    obtain ⟨k, hk⟩ := (Finset.mem_filter.mp hj).2
    rw [← mulVec_selectedRows_verbatim v hk, hv]
    rfl
  -- what is left is a kernel vector of a Cauchy matrix
  set T := (parities idx).image fun k => x (idx k - n) with hT
  have hTcard : (verbatim idx)ᶜ.card ≤ T.card := by
    rw [hT, Finset.card_image_of_injOn fun k hk l hl => hx k hk l hl, card_parities hidx]
  funext j
  by_cases hj : j ∈ verbatim idx
  · exact hverb j hj
  · refine eq_zero_of_cauchy_sums (S := (verbatim idx)ᶜ) (T := T) hy.injOn hTcard ?_ ?_
      (Finset.mem_compl.mpr hj)
    · rintro _ hx' i -
      obtain ⟨k, hk, rfl⟩ := Finset.mem_image.mp hx'
      exact hne k hk i
    · intro _ hx'
      obtain ⟨k, hk, rfl⟩ := Finset.mem_image.mp hx'
      have hrow := congrFun hv k
      rw [mulVec_selectedRows_parity v (Finset.mem_filter.mp hk).2] at hrow
      refine (Finset.sum_subset (Finset.subset_univ _) fun i _ hi => ?_).trans hrow
      rw [hverb i (by simpa using hi), zero_mul]

end CauchyCode
