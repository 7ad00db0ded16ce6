/-
Reed–Solomon erasure coding with a Cauchy matrix (`reed_solomon.rs`).

`generateCauchyMatrix` gives the weights of the code shreds, `encode` computes
them, and `decode` recovers the data shreds from any `num_data` shreds by
inverting the matrix of the rows received.

A shred is a `Vec<u8>` of any length, so reading one can panic; the matrices
that `decode` builds for itself have fixed dimensions.
-/
import Mathlib.Data.Matrix.Basic
import Sg32.Foundation.Panic
import Sg32.Gf256

namespace Sg32

open Rust

def NUM_DATA_SHREDS : ℕ := 32

def NUM_CODE_SHREDS : ℕ := 32

/-- The weights `C[i][j] = 1 / (x_i + y_j)`; row `i` is the recipe for code
shred `i`. -/
def generateCauchyMatrix (num_data num_code : ℕ) : List Bytes :=
  (List.range num_code).map fun i =>
    (List.range num_data).map fun j =>
      let x_i := UInt8.ofNat i
      let y_j := UInt8.ofNat (num_data + j)
      gfInv (gfAdd x_i y_j)

/-- Code shred bytes: the weighted sum over all data shreds at each column. -/
def encode (data_shreds cauchy : List Bytes) (num_code : ℕ) : Checked (List Bytes) := do
  let first ← index data_shreds 0
  let shred_size := first.length
  (List.range num_code).mapM fun i =>
    (List.range shred_size).mapM fun col =>
      (List.range data_shreds.length).foldlM (fun sum j => do
        let shred ← index data_shreds j
        let byte ← index shred col
        let weights ← index cauchy i
        let weight ← index weights j
        pure (gfAdd sum (gfMul byte weight))) 0

/-! ### Matrix inversion -/

/-- A `Vec<Vec<u8>>` of `m` rows and `n` columns. -/
abbrev ByteMatrix (m n : ℕ) := Vector (Vector UInt8 n) m

variable {n : ℕ}

/-- `[A | I]`. -/
def augment (matrix : ByteMatrix n n) : ByteMatrix n (n + n) :=
  Vector.ofFn fun i => Vector.ofFn fun j =>
    Fin.addCases (fun j' => matrix[i][j']) (fun j' => if j' = i then 1 else 0) j

/-- Scale the pivot row so that its entry in column `col` is 1. -/
def normalizeRow (aug : ByteMatrix n (n + n)) (col : Fin n) : ByteMatrix n (n + n) :=
  let inv := gfInv aug[col][Fin.castAdd n col]
  aug.set col (Vector.ofFn fun j => gfMul aug[col][j] inv)

/-- Subtract multiples of the pivot row from the rows with an entry in column
`col`. -/
def clearColumn (aug : ByteMatrix n (n + n)) (col : Fin n) : ByteMatrix n (n + n) :=
  Vector.ofFn fun row =>
    let factor := aug[row][Fin.castAdd n col]
    if row ≠ col ∧ factor ≠ 0 then
      Vector.ofFn fun j => gfSub aug[row][j] (gfMul factor aug[col][j])
    else aug[row]

/-- `(col..n).find(|&row| aug[row][col] != 0)`. -/
def findPivot (aug : ByteMatrix n (n + n)) (col : Fin n) : Option (Fin n) :=
  (List.finRange n).find? fun row => decide (col ≤ row ∧ aug[row][Fin.castAdd n col] ≠ 0)

/-- One column of the elimination; `none` when it has no pivot. -/
def eliminateColumn (aug : ByteMatrix n (n + n)) (col : Fin n) :
    Option (ByteMatrix n (n + n)) := do
  let pivot ← findPivot aug col
  some (clearColumn (normalizeRow (aug.swap col pivot) col) col)

theorem findPivot_some {aug : ByteMatrix n (n + n)} {col pivot : Fin n}
    (h : findPivot aug col = some pivot) :
    col ≤ pivot ∧ aug[pivot][Fin.castAdd n col] ≠ 0 := by
  have hpivot := List.find?_some h
  simpa only [decide_eq_true_eq] using hpivot

theorem findPivot_none {aug : ByteMatrix n (n + n)} {col : Fin n}
    (h : findPivot aug col = none) (i : Fin n) (hi : col ≤ i) :
    aug[i][Fin.castAdd n col] = 0 := by
  have hall := List.find?_eq_none.mp h i (List.mem_finRange i)
  simp only [decide_eq_true_eq, not_and, not_not] at hall
  exact hall hi

/-- The entry whose inverse one turn of the loop multiplies by. -/
def divisor (aug : ByteMatrix n (n + n)) (col : Fin n) : Option UInt8 :=
  (findPivot aug col).map fun (pivot : Fin n) => (aug.swap col pivot)[col][Fin.castAdd n col]

/-- Gaussian elimination from `[A | I]` to `[I | A⁻¹]`. -/
def gfMatrixInvert (matrix : ByteMatrix n n) : Option (ByteMatrix n n) := do
  let aug ← (List.finRange n).foldlM eliminateColumn (augment matrix)
  some (Vector.ofFn fun i => Vector.ofFn fun j => aug[i][Fin.natAdd n j])

/-! ### Decoder -/

/-- The matrix row of a received shred: a unit vector for a data shred, the
Cauchy weights for a code shred. -/
def decodeRow (cauchy : List Bytes) (num_data idx : ℕ) : Checked (Vector UInt8 num_data) :=
  if idx < num_data then pure (Vector.ofFn fun j => if idx = j.val then 1 else 0)
  else do
    let weights ← index cauchy (idx - num_data)
    if h : weights.length = num_data then pure ⟨⟨weights⟩, h⟩ else .error .lengthMismatch

/-- The inverted matrix times the received shreds, column by column. -/
def multiplyReceived {num_data : ℕ} (inverted : ByteMatrix num_data num_data)
    (received : List Bytes) (shred_size : ℕ) : Checked (List Bytes) :=
  (List.finRange num_data).mapM fun i =>
    (List.range shred_size).mapM fun col =>
      (List.finRange num_data).foldlM (fun sum (k : Fin num_data) => do
        let shred ← index received k.val
        let byte ← index shred col
        pure (gfAdd sum (gfMul inverted[i][k] byte))) 0

/-- Recovers the data shreds from `num_data` received shreds and the indices
that identify them. -/
def decode (received : List Bytes) (row_indices : List ℕ) (cauchy : List Bytes)
    (num_data : ℕ) : Checked (Option (List Bytes)) :=
  if received.length ≠ num_data ∨ row_indices.length ≠ num_data then
    .error .assertionFailed
  else do
    let first ← index received 0
    let shred_size := first.length
    let rows ← row_indices.mapM (decodeRow cauchy num_data)
    if h : rows.length = num_data then
      match gfMatrixInvert (n := num_data) ⟨⟨rows⟩, h⟩ with
      | none => pure none
      | some inverted =>
        let recovered ← multiplyReceived inverted received shred_size
        pure (some recovered)
    else .error .assertionFailed -- not reached: one row for each index

end Sg32
