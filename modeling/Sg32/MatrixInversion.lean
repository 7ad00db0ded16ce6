/-
Matrix inversion over GF(2^8) is exact.

The elimination loop of `gfMatrixInvert` is Gauss–Jordan elimination of the
left half of the augmented matrix, recorded in the right half.

* `eliminateColumn_some` — a column with a pivot is one `GaussJordan.rowStep`;
* `eliminateColumn_none` — a column without pivot is zero from the diagonal;
* `gfMatrixInvert_some`, `gfMatrixInvert_none` — the result is the inverse,
  or the matrix is singular;
* `gfMatrixInvert_exact` — the same in the arithmetic of the code.
-/
import Sg32.Foundation.GaussJordan
import Sg32.ReedSolomon

namespace Sg32

open GaussJordan Matrix

variable {m n : ℕ}

/-- A grid of bytes as a matrix over GF(2^8). -/
def toMatrix (A : ByteMatrix m n) : Matrix (Fin m) (Fin n) GF256 :=
  fun i j => ⟨(A.get i).get j⟩

/-- The left half of an augmented matrix. -/
def leftHalf (aug : ByteMatrix n (n + n)) : Matrix (Fin n) (Fin n) GF256 :=
  fun i j => toMatrix aug i (Fin.castAdd n j)

/-- The right half of an augmented matrix. -/
def rightHalf (aug : ByteMatrix n (n + n)) : Matrix (Fin n) (Fin n) GF256 :=
  fun i j => toMatrix aug i (Fin.natAdd n j)

@[simp] theorem toMatrix_ofFn (f : Fin m → Fin n → UInt8) :
    toMatrix (Vector.ofFn fun i => Vector.ofFn (f i)) = fun i j => ⟨f i j⟩ := by
  funext i j
  show GF256.mk (Vector.ofFn fun i => Vector.ofFn (f i))[i][j] = _
  simp

theorem leftHalf_augment (matrix : ByteMatrix n n) :
    leftHalf (augment matrix) = toMatrix matrix := by
  funext i j
  rw [leftHalf, augment, toMatrix_ofFn]
  simp only [Fin.addCases_left]
  rfl

theorem rightHalf_augment (matrix : ByteMatrix n n) : rightHalf (augment matrix) = 1 := by
  funext i j
  rw [rightHalf, augment, toMatrix_ofFn, Matrix.one_apply]
  simp only [Fin.addCases_right]
  by_cases h : i = j
  · rw [if_pos h, if_pos h.symm]
    rfl
  · rw [if_neg h, if_neg (Ne.symm h)]
    rfl

/-! ### The three parts of the loop body -/

theorem toMatrix_swap (aug : ByteMatrix m n) (p q i : Fin m) (j : Fin n) :
    toMatrix (aug.swap p q p.isLt q.isLt) i j = toMatrix aug (Equiv.swap p q i) j := by
  show GF256.mk (aug.swap p q)[i][j] = toMatrix aug (Equiv.swap p q i) j
  simp only [Fin.getElem_fin, Vector.getElem_swap, Equiv.swap_apply_def, Fin.ext_iff]
  split_ifs <;> rfl

theorem toMatrix_normalizeRow (aug : ByteMatrix n (n + n)) (col i : Fin n) (j : Fin (n + n)) :
    toMatrix (normalizeRow aug col) i j =
      if i = col then (leftHalf aug col col)⁻¹ * toMatrix aug col j else toMatrix aug i j := by
  by_cases hi : i = col
  · subst hi
    rw [if_pos rfl, mul_comm]
    show GF256.mk (normalizeRow aug i)[i][j] = _
    simp only [normalizeRow, Fin.getElem_fin, Vector.getElem_set_self, Vector.getElem_ofFn]
    rfl
  · rw [if_neg hi]
    have hne : col.val ≠ i.val := fun h => hi (Fin.ext h.symm)
    show GF256.mk (normalizeRow aug col)[i][j] = GF256.mk aug[i][j]
    simp only [normalizeRow, Fin.getElem_fin, Vector.getElem_set_ne _ _ hne]

/-- A row without an entry in the column loses zero times the pivot row. -/
theorem toMatrix_clearColumn (aug : ByteMatrix n (n + n)) (col i : Fin n) (j : Fin (n + n)) :
    toMatrix (clearColumn aug col) i j =
      if i = col then toMatrix aug col j
      else toMatrix aug i j - leftHalf aug i col * toMatrix aug col j := by
  have hrow : (clearColumn aug col)[i] =
      if i ≠ col ∧ aug[i][Fin.castAdd n col] ≠ 0 then
        Vector.ofFn fun j => gfSub aug[i][j] (gfMul aug[i][Fin.castAdd n col] aug[col][j])
      else aug[i] := by
    simp only [clearColumn, Fin.getElem_fin, Vector.getElem_ofFn, Fin.eta]
  show (⟨(clearColumn aug col)[i][j]⟩ : GF256) = _
  by_cases hi : i = col
  · rw [hrow, if_neg (fun h => h.1 hi), if_pos hi, hi]
    rfl
  · by_cases hfactor : aug[i][Fin.castAdd n col] = 0
    · have hleft : leftHalf aug i col = 0 := congrArg GF256.mk hfactor
      rw [hrow, if_neg (fun h => h.2 hfactor), if_neg hi, hleft, zero_mul, sub_zero]
      rfl
    · rw [hrow, if_pos ⟨hi, hfactor⟩, if_neg hi, Fin.getElem_fin, Vector.getElem_ofFn]
      rfl

/-- A column with a pivot is one elimination step. -/
theorem eliminateColumn_some {aug aug' : ByteMatrix n (n + n)} {col : Fin n}
    (h : eliminateColumn aug col = some aug') :
    ∃ pivot : Fin n, col ≤ pivot ∧ leftHalf aug pivot col ≠ 0 ∧
      toMatrix aug' = rowStep col pivot (leftHalf aug pivot col)⁻¹
        (fun i => leftHalf aug (Equiv.swap col pivot i) col) (toMatrix aug) := by
  rw [eliminateColumn, Option.bind_eq_bind, Option.bind_eq_some_iff] at h
  obtain ⟨pivot, hfind, h⟩ := h
  obtain ⟨hle, hentry⟩ := findPivot_some hfind
  refine ⟨pivot, hle, fun h0 => hentry (congrArg GF256.byte h0), ?_⟩
  cases h
  funext i j
  rw [toMatrix_clearColumn, rowStep]
  simp only [leftHalf, toMatrix_normalizeRow, toMatrix_swap, Equiv.swap_apply_left, if_true]
  -- the pivot row is normalized, the others are cleared
  by_cases hi : i = col
  · rw [if_pos hi, if_pos hi]
  · rw [if_neg hi, if_neg hi, if_neg hi]
    simp only [if_neg hi]

/-- A column without pivot is zero from the diagonal down. -/
theorem eliminateColumn_none {aug : ByteMatrix n (n + n)} {col : Fin n}
    (h : eliminateColumn aug col = none) (i : Fin n) (hi : col ≤ i) :
    leftHalf aug i col = 0 := by
  rw [eliminateColumn, Option.bind_eq_bind] at h
  cases hfind : findPivot aug col with
  | some pivot => rw [hfind] at h; cases h
  | none => exact congrArg GF256.mk (findPivot_none hfind i hi)

/-! ### The whole loop -/

/-- From the invariant after `k` columns, the remaining columns either reach
the inverse or show that the matrix is singular. -/
theorem foldlM_eliminateColumn {M : Matrix (Fin n) (Fin n) GF256} (cols : List (Fin n)) (k : ℕ)
    (hcols : ∀ i (hi : i < cols.length), (cols[i]).val = k + i) (hk : k + cols.length = n)
    (aug : ByteMatrix n (n + n)) (h : Progress M (leftHalf aug) (rightHalf aug) k) :
    match cols.foldlM eliminateColumn aug with
    | some aug' => Progress M (leftHalf aug') (rightHalf aug') n
    | none => M.det = 0 := by
  -- induction on the columns that are left, with `Progress` up to column `k`
  induction cols generalizing k aug with
  | nil =>
    have hkn : k = n := hk
    rwa [hkn] at h
  | cons col cols ih =>
    have hcol : col.val = k := hcols 0 (by simp)
    rw [List.foldlM_cons]
    cases hstep : eliminateColumn aug col with
    | none =>
      exact h.det_eq_zero hcol fun i hi =>
        eliminateColumn_none hstep i (Fin.le_def.mpr (by omega))
    | some aug' =>
      obtain ⟨pivot, hle, hpivot, haug⟩ := eliminateColumn_some hstep
      have hnext := h.step hcol (by have := Fin.le_def.mp hle; omega) hpivot
      refine ih (k + 1) (fun i hi => ?_) (by simpa [Nat.add_assoc, Nat.add_comm 1] using hk) aug' ?_
      · have := hcols (i + 1) (by simpa using hi)
        simp only [List.getElem_cons_succ] at this
        omega
      · have hl : leftHalf aug' = rowStep col pivot (leftHalf aug pivot col)⁻¹
            (fun i => leftHalf aug (Equiv.swap col pivot i) col) (leftHalf aug) := by
          funext i j
          rw [leftHalf, haug]
          rfl
        have hr : rightHalf aug' = rowStep col pivot (leftHalf aug pivot col)⁻¹
            (fun i => leftHalf aug (Equiv.swap col pivot i) col) (rightHalf aug) := by
          funext i j
          rw [rightHalf, haug]
          rfl
        rwa [hl, hr]

theorem gfMatrixInvert_progress (matrix : ByteMatrix n n) :
    match (List.finRange n).foldlM eliminateColumn (augment matrix) with
    | some aug' => Progress (toMatrix matrix) (leftHalf aug') (rightHalf aug') n
    | none => (toMatrix matrix).det = 0 := by
  refine foldlM_eliminateColumn (List.finRange n) 0 (fun i hi => ?_) (by simp) _ ?_
  · simp
  · rw [leftHalf_augment, rightHalf_augment]
    exact Progress.init _

theorem gfMatrixInvert_some {matrix inverse : ByteMatrix n n}
    (h : gfMatrixInvert matrix = some inverse) :
    toMatrix inverse * toMatrix matrix = 1 := by
  have hp := gfMatrixInvert_progress matrix
  simp only [gfMatrixInvert, Option.bind_eq_bind, Option.bind_eq_some_iff] at h
  obtain ⟨aug, haug, h⟩ := h
  cases h
  rw [haug] at hp
  rw [toMatrix_ofFn]
  exact hp.inverse

theorem gfMatrixInvert_none {matrix : ByteMatrix n n} (h : gfMatrixInvert matrix = none) :
    (toMatrix matrix).det = 0 := by
  have hp := gfMatrixInvert_progress matrix
  cases hloop : (List.finRange n).foldlM eliminateColumn (augment matrix) with
  | none => rwa [hloop] at hp
  | some aug =>
    simp only [gfMatrixInvert, hloop] at h
    cases h

/-- The inverse exists for the matrices that have one, and only for them. -/
theorem gfMatrixInvert_isSome_iff (matrix : ByteMatrix n n) :
    (gfMatrixInvert matrix).isSome ↔ (toMatrix matrix).det ≠ 0 := by
  cases h : gfMatrixInvert matrix with
  | none => simpa using gfMatrixInvert_none h
  | some inverse =>
    have hdet := congrArg Matrix.det (gfMatrixInvert_some h)
    rw [Matrix.det_mul, Matrix.det_one] at hdet
    simpa using right_ne_zero_of_mul_eq_one hdet

/-! ### In the arithmetic of the code -/

/-- An accumulating loop of additions is a sum in the field. -/
theorem mk_foldl_gfAdd {α : Type} (l : List α) (f : α → UInt8) (a : UInt8) :
    (⟨l.foldl (fun s x => gfAdd s (f x)) a⟩ : GF256) = ⟨a⟩ + (l.map fun x => ⟨f x⟩).sum := by
  induction l generalizing a with
  | nil => simp
  | cons x l ih =>
    rw [List.foldl_cons, ih, List.map_cons, List.sum_cons, GF256.mk_gfAdd, add_assoc]

/-- The product of two matrices under `gfAdd` and `gfMul`. -/
def gfMatrixMul (A B : ByteMatrix n n) : ByteMatrix n n :=
  Vector.ofFn fun i => Vector.ofFn fun j =>
    (List.finRange n).foldl (fun sum k => gfAdd sum (gfMul ((A.get i).get k) ((B.get k).get j))) 0

def gfIdentity (n : ℕ) : ByteMatrix n n :=
  Vector.ofFn fun i => Vector.ofFn fun j => if i = j then 1 else 0

theorem toMatrix_gfMatrixMul (A B : ByteMatrix n n) :
    toMatrix (gfMatrixMul A B) = toMatrix A * toMatrix B := by
  rw [gfMatrixMul, toMatrix_ofFn]
  funext i j
  rw [mk_foldl_gfAdd, GF256.mk_zero, zero_add, ← Fin.sum_univ_def, Matrix.mul_apply]
  rfl

theorem toMatrix_gfIdentity (n : ℕ) : toMatrix (gfIdentity n) = 1 := by
  rw [gfIdentity, toMatrix_ofFn]
  funext i j
  rw [Matrix.one_apply]
  split_ifs <;> rfl

theorem toMatrix_injective {A B : ByteMatrix m n} (h : toMatrix A = toMatrix B) : A = B := by
  refine Vector.ext fun i hi => Vector.ext fun j hj => ?_
  exact congrArg GF256.byte (congrFun (congrFun h ⟨i, hi⟩) ⟨j, hj⟩)

theorem divisor_ne_zero (aug : ByteMatrix n (n + n)) (col : Fin n) :
    divisor aug col ≠ some 0 := by
  intro hzero
  obtain ⟨pivot, hfind, hentry⟩ := Option.map_eq_some_iff.mp hzero
  refine (findPivot_some hfind).2 ?_
  rw [← hentry]
  simp

/-- Every inverse that the elimination takes is of a nonzero entry. -/
def NeverDividesByZero (matrix : ByteMatrix n n) : Prop :=
  ∀ before col after, List.finRange n = before ++ col :: after →
    ∀ aug, before.foldlM eliminateColumn (augment matrix) = some aug → divisor aug col ≠ some 0

/-- **Matrix inversion is exact**: a matrix is inverted exactly when it is not
singular, the result is its inverse on both sides, and no entry that is divided
by is zero. -/
theorem gfMatrixInvert_exact (matrix : ByteMatrix n n) :
    ((gfMatrixInvert matrix).isSome ↔ (toMatrix matrix).det ≠ 0) ∧
      (∀ inverse, gfMatrixInvert matrix = some inverse →
        gfMatrixMul inverse matrix = gfIdentity n ∧ gfMatrixMul matrix inverse = gfIdentity n) ∧
      NeverDividesByZero matrix := by
  refine ⟨gfMatrixInvert_isSome_iff matrix, ?_, ?_⟩
  · intro inverse h
    have hleft := gfMatrixInvert_some h
    have hright := mul_eq_one_comm.mp hleft
    constructor
    · refine toMatrix_injective ?_
      rw [toMatrix_gfMatrixMul, hleft, toMatrix_gfIdentity]
    · refine toMatrix_injective ?_
      rw [toMatrix_gfMatrixMul, hright, toMatrix_gfIdentity]
  · intro before col after _ aug _
    exact divisor_ne_zero aug col

end Sg32
