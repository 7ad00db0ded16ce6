/-
Which shapes of a batch the Cauchy matrix supports.

A batch has whatever dimensions the first coding header names.  The points of
`generateCauchyMatrix` are `i as u8` and `(num_data + j) as u8`: a code row
past the data rows repeats the pole of a data column, and so does the first
code row once `num_data + j` wraps around to 0.  Its weight there is `gf_inv(0)`,
which is 0.

* `exists_point_eq_pole_iff` — when a point is a pole;
* `points_injective_iff`, `submatrix_det_ne_zero_iff`,
  `recoversFromAny_iff` — what that does to the points, to the square
  submatrices and to recovery;
* `cauchyUsable_iff` — the shapes for which nothing goes wrong.
-/
import Sg32.ShredBatch

namespace Sg32

open Rust

variable {num_data num_code : ℕ}

/-! ### Points -/

/-- The points of the code rows and the poles of the data columns. -/
def points (num_data num_code : ℕ) : Fin num_code ⊕ Fin num_data → GF256 :=
  Sum.elim (fun i => point i.val) (pole num_data)

/-- No code row past the data rows, and no data column past the last byte. -/
theorem exists_point_eq_pole_iff (hdata : 1 ≤ num_data) (hcode : 1 ≤ num_code)
    (hsum : num_data + num_code ≤ 256) :
    (∃ (i : Fin num_code) (j : Fin num_data), point i.val = pole num_data j) ↔
      ¬(num_code ≤ num_data ∧ num_data ≤ 128) := by
  constructor
  · rintro ⟨i, j, hij⟩ ⟨hle, hbytes⟩
    have hnat := ofNat_byte_inj (by omega) (by omega) hij
    omega
  · intro hnot
    by_cases hle : num_code ≤ num_data
    · -- `num_data + j` is 256 at `j = 256 - num_data`
      have hwide : 128 < num_data := by
        by_contra hbytes
        exact hnot ⟨hle, by omega⟩
      refine ⟨⟨0, hcode⟩, ⟨256 - num_data, by omega⟩, ?_⟩
      have hwrap : num_data + (256 - num_data) = 256 := by omega
      rw [point, pole, hwrap]
      exact congrArg GF256.mk (show UInt8.ofNat 0 = UInt8.ofNat 256 by decide)
    · -- more code shreds than data shreds: point `num_data` is the first pole
      exact ⟨⟨num_data, by omega⟩, ⟨0, hdata⟩, rfl⟩

theorem point_injective (hsum : num_data + num_code ≤ 256) :
    Function.Injective fun i : Fin num_code => point i.val := by
  intro i j hij
  exact Fin.ext (ofNat_byte_inj (by omega) (by omega) hij)

/-- The poles are different even when they wrap around. -/
theorem pole_injective (hdata : num_data ≤ 256) : Function.Injective (pole num_data) := by
  intro i j hij
  have hnat := congrArg (fun x : GF256 => x.byte.toNat) hij
  simp only [pole, UInt8.toNat_ofNat'] at hnat
  exact Fin.ext (by omega)

theorem points_injective_iff (hdata : 1 ≤ num_data) (hcode : 1 ≤ num_code)
    (hsum : num_data + num_code ≤ 256) :
    Function.Injective (points num_data num_code) ↔ num_code ≤ num_data ∧ num_data ≤ 128 := by
  have hapart := exists_point_eq_pole_iff hdata hcode hsum
  rw [← not_iff_not, ← hapart]
  constructor
  · intro hnot
    by_contra hne
    push Not at hne
    exact hnot (Function.Injective.sumElim (point_injective hsum) (pole_injective (by omega)) hne)
  · rintro ⟨i, j, hij⟩ hinj
    exact Sum.inl_ne_inr (hinj hij : Sum.inl i = Sum.inr j)

/-! ### Square submatrices -/

/-- `generateCauchyMatrix` as a matrix over the field. -/
def cauchyWeights (num_data num_code : ℕ) : Matrix (Fin num_code) (Fin num_data) GF256 :=
  fun i j => ⟨byteAt (generateCauchyMatrix num_data num_code) i.val j.val⟩

theorem cauchyWeights_eq (i : Fin num_code) (j : Fin num_data) :
    cauchyWeights num_data num_code i j = (point i.val + pole num_data j)⁻¹ :=
  byteAt_generateCauchyMatrix i.isLt j

/-- Every choice of as many rows as columns can be inverted. -/
def EverySubmatrixInvertible (num_data num_code : ℕ) : Prop :=
  ∀ (n : ℕ) (row : Fin n → Fin num_code) (col : Fin n → Fin num_data),
    Function.Injective row → Function.Injective col →
      ((cauchyWeights num_data num_code).submatrix row col).det ≠ 0

theorem submatrix_det_ne_zero_iff (hdata : 1 ≤ num_data) (hcode : 1 ≤ num_code)
    (hsum : num_data + num_code ≤ 256) :
    EverySubmatrixInvertible num_data num_code ↔ num_code ≤ num_data ∧ num_data ≤ 128 := by
  rw [← not_iff_not, ← exists_point_eq_pole_iff hdata hcode hsum]
  constructor
  · intro hnot
    by_contra hne
    push Not at hne
    refine hnot fun n row col hrow hcol => ?_
    have hweights : (cauchyWeights num_data num_code).submatrix row col =
        Matrix.of fun k l => (point (row k).val + pole num_data (col l))⁻¹ := by
      ext k l
      rw [Matrix.submatrix_apply, cauchyWeights_eq, Matrix.of_apply]
    rw [hweights]
    refine CauchyCode.det_cauchy_ne_zero ((point_injective hsum).comp hrow)
      ((pole_injective (by omega)).comp hcol) ?_
    intro k l hzero
    exact hne _ _ (GF256.add_eq_zero_iff.mp hzero)
  · rintro ⟨i, j, hij⟩ hall
    -- the entry where point and pole meet is a submatrix of its own
    refine hall 1 (fun _ => i) (fun _ => j) (Function.injective_of_subsingleton _)
      (Function.injective_of_subsingleton _) ?_
    rw [Matrix.det_unique, Matrix.submatrix_apply, cauchyWeights_eq,
      GF256.add_eq_zero_iff.mpr hij, inv_zero]

/-! ### Recovery -/

/-- The call that stores a row of an erasure set. -/
def rowCall (data_shreds code_shreds : List Bytes) (row : ℕ) : BatchCall :=
  if row < data_shreds.length then .addDataShred (UInt32.ofNat row) (data_shreds.getD row [])
  else .addCodeShred (UInt32.ofNat (row - data_shreds.length))
    (code_shreds.getD (row - data_shreds.length) [])

namespace FecBatch

variable {data_shreds code_shreds : List Bytes}

theorem holds_rowCall {rows : Finset ℕ} {batch : FecBatch}
    (h : Holds data_shreds code_shreds rows batch) {row : ℕ}
    (hrow : row < data_shreds.length + code_shreds.length) (hbyte : row < 2 ^ 32) :
    Holds data_shreds code_shreds (insert row rows)
      (batch.call (rowCall data_shreds code_shreds row)) := by
  rw [rowCall]
  split_ifs with hdata
  · -- a data shred, and then a code shred; neither index wraps around
    have hnat : (UInt32.ofNat row).toNat = row := UInt32.toNat_ofNat_of_lt' hbyte
    have hget : data_shreds[(UInt32.ofNat row).toNat]? = some (data_shreds.getD row []) := by
      rw [hnat]
      simp [hdata]
    have hadd := holds_addDataShred h hget
    rwa [hnat] at hadd
  · have hnat : (UInt32.ofNat (row - data_shreds.length)).toNat = row - data_shreds.length :=
      UInt32.toNat_ofNat_of_lt' (lt_of_le_of_lt (Nat.sub_le _ _) hbyte)
    have hlt : row - data_shreds.length < code_shreds.length := by omega
    have hget : code_shreds[(UInt32.ofNat (row - data_shreds.length)).toNat]? =
        some (code_shreds.getD (row - data_shreds.length) []) := by
      rw [hnat]
      simp [hlt]
    have hadd := holds_addCodeShred h hget
    rwa [hnat, Nat.add_sub_cancel' (Nat.not_lt.mp hdata)] at hadd

/-- A batch that is given rows of a set holds these rows. -/
theorem holds_run (slot : UInt64) (fec_set_index : UInt32) {rows : List ℕ}
    (hrows : ∀ row ∈ rows, row < data_shreds.length + code_shreds.length)
    (hbytes : ∀ row ∈ rows, row < 2 ^ 32) :
    Holds data_shreds code_shreds rows.toFinset
      (run slot fec_set_index data_shreds.length code_shreds.length
        (rows.map (rowCall data_shreds code_shreds))) := by
  induction rows using List.reverseRecOn with
  | nil => exact holds_new _ _ _ _
  | append_singleton rows row ih =>
    have ih' := ih (fun r hr => hrows r (by simp [hr])) (fun r hr => hbytes r (by simp [hr]))
    have hstep := holds_rowCall ih' (hrows row (by simp)) (hbytes row (by simp))
    have hset : (rows ++ [row]).toFinset = insert row rows.toFinset := by
      ext r
      simp
    rw [hset]
    simpa [run, List.foldl_append] using hstep

/-- Rows that do not determine the data: nothing is recovered. -/
theorem tryRecover_singular {batch : FecBatch} (hcount : batch.num_data ≤ batch.receivedCount)
    (hdata : countPresent batch.data_shreds ≠ batch.num_data) (hsingular : batch.Singular) :
    batch.tryRecover = .ok none := by
  have hlen := length_selectedShreds batch hcount
  have hle := batch.countPresent_data_le
  rw [tryRecover_eq_decode hcount hdata]
  exact decode_singular (by simpa using hlen) (by simpa using hlen)
    (fun row hrow => lt_of_mem_selectedRows hrow) (by simp; omega)
    ((det_eq_zero_iff_singular hcount).mpr hsingular)

/-- All data rows but one, and a code row without weight at that one. -/
theorem singular_of_point_eq_pole {rows : Finset ℕ} {batch : FecBatch}
    (h : Holds data_shreds code_shreds rows batch) {i : ℕ} {j : Fin batch.num_data}
    (hij : point i = pole batch.num_data j)
    (hrows : ∀ row ∈ rows, row < batch.num_data ∧ row ≠ j.val ∨ row = batch.num_data + i) :
    batch.Singular := by
  refine ⟨Pi.single j 1, by simp, ?_⟩
  intro row bytes huse
  have hmem := mem_rows_of_selected h (List.mem_map.mpr ⟨_, mem_selectedShreds.mpr huse, rfl⟩)
  rw [Finset.sum_eq_single j (fun k _ hk => by rw [Pi.single_eq_of_ne hk, mul_zero])
    (fun hj => absurd (Finset.mem_univ _) hj), Pi.single_eq_same, mul_one,
    CauchyCode.generatorRow]
  rcases hrows row hmem with ⟨hlt, hne⟩ | rfl
  · rw [if_pos hlt, if_neg hne]
  · rw [if_neg (Nat.not_lt.mpr (Nat.le_add_right _ _)), Nat.add_sub_cancel_left,
      GF256.add_eq_zero_iff.mpr hij, inv_zero]

end FecBatch

/-- The data rows without `j`, and code row `i`. -/
def lostRows (num_data i j : ℕ) : List ℕ := (List.range num_data).erase j ++ [num_data + i]

theorem mem_lostRows {i j row : ℕ} :
    row ∈ lostRows num_data i j ↔ row < num_data ∧ row ≠ j ∨ row = num_data + i := by
  rw [lostRows, List.mem_append, List.nodup_range.mem_erase_iff, List.mem_range,
    List.mem_singleton, and_comm]

theorem nodup_lostRows (num_data i j : ℕ) : (lostRows num_data i j).Nodup := by
  refine List.nodup_append.mpr ⟨List.nodup_range.erase _, List.nodup_singleton _, ?_⟩
  rintro a ha b hb rfl
  have hlt := List.mem_range.mp (List.mem_of_mem_erase ha)
  rw [List.mem_singleton] at hb
  omega

theorem length_lostRows (i : ℕ) {j : ℕ} (hj : j < num_data) :
    (lostRows num_data i j).length = num_data := by
  rw [lostRows, List.length_append, List.length_erase_of_mem (List.mem_range.mpr hj),
    List.length_range, List.length_singleton]
  omega

/-- At a code row whose point is a pole, every set can be lost. -/
theorem tryRecover_lostRows (slot : UInt64) (fec_set_index : UInt32)
    {data_shreds : List Bytes} (code_shreds : List Bytes)
    (hsum : data_shreds.length + code_shreds.length ≤ 256) {i : ℕ} (hi : i < code_shreds.length)
    {j : Fin data_shreds.length} (hij : point i = pole data_shreds.length j) :
    (FecBatch.run slot fec_set_index data_shreds.length code_shreds.length
      ((lostRows data_shreds.length i j).map (rowCall data_shreds code_shreds))).tryRecover =
        .ok none := by
  have hrows : ∀ row ∈ lostRows data_shreds.length i j,
      row < data_shreds.length + code_shreds.length := by
    intro row hrow
    rcases mem_lostRows.mp hrow with ⟨hlt, -⟩ | rfl <;> omega
  have h := FecBatch.holds_run slot fec_set_index hrows fun row hrow => by
    have := hrows row hrow
    omega
  set batch := FecBatch.run slot fec_set_index data_shreds.length code_shreds.length
    ((lostRows data_shreds.length i j).map (rowCall data_shreds code_shreds)) with hbatch
  have hcard : (lostRows data_shreds.length i j).toFinset.card = data_shreds.length := by
    rw [List.toFinset_card_of_nodup (nodup_lostRows _ _ _), length_lostRows _ j.isLt]
  -- enough shreds, a data shred is missing, and a row of the matrix is a division by zero
  refine FecBatch.tryRecover_singular ?_ (FecBatch.countPresent_data_ne h j.isLt ?_) ?_
  · rw [FecBatch.receivedCount_of_holds h (by simpa using hrows), h.num_data, hcard]
  · rw [List.mem_toFinset, mem_lostRows]
    omega
  · obtain ⟨j', hj'⟩ : ∃ j' : Fin batch.num_data, j'.val = j.val :=
      ⟨⟨j.val, by rw [h.num_data]; exact j.isLt⟩, rfl⟩
    refine FecBatch.singular_of_point_eq_pole h (i := i) (j := j') ?_ ?_
    · rw [hij, pole, pole, hj', h.num_data]
    · intro row hrow
      rw [hj', h.num_data]
      exact mem_lostRows.mp (List.mem_toFinset.mp hrow)

/-- Batches of this shape that were given `num_data` different shreds of an
encoded set, in any order, recover something. -/
def RecoversFromAny (num_data num_code : ℕ) : Prop :=
  ∀ (slot : UInt64) (fec_set_index : UInt32) (data_shreds code_shreds : List Bytes) (w : ℕ)
    (rows : List ℕ),
    data_shreds.length = num_data → (∀ d ∈ data_shreds, d.length = w) →
    encode data_shreds (generateCauchyMatrix num_data num_code) num_code = .ok code_shreds →
    rows.length = num_data → rows.Nodup → (∀ row ∈ rows, row < num_data + num_code) →
    (FecBatch.run slot fec_set_index num_data num_code
      (rows.map (rowCall data_shreds code_shreds))).tryRecover ≠ .ok none

/-- In a usable shape the decoder works on any `num_data` rows. -/
theorem recoversFromAny_of_le (hdata : 1 ≤ num_data) (hle : num_code ≤ num_data)
    (hbytes : num_data ≤ 128) : RecoversFromAny num_data num_code := by
  intro slot fec_set_index data_shreds code_shreds w rows hlen hw hencode hcount hnodup hrows
  subst hlen
  rw [encode_eq_parity num_code hdata hw] at hencode
  cases hencode
  have hbytes' : ∀ row ∈ rows, row < 2 ^ 32 := by
    intro row hrow
    have := hrows row hrow
    omega
  have hrows' : ∀ row ∈ rows, row < data_shreds.length + (parity data_shreds
      (generateCauchyMatrix data_shreds.length num_code) num_code w).length := by
    simpa using hrows
  have h := FecBatch.holds_run slot fec_set_index hrows' hbytes'
  rw [length_parity] at h
  rw [FecBatch.tryRecover_of_holds hle hbytes hw h (by simpa using hrows),
    List.toFinset_card_of_nodup hnodup, hcount, if_neg (lt_irrefl _)]
  simp

theorem recoversFromAny_iff (hdata : 1 ≤ num_data) (hcode : 1 ≤ num_code)
    (hsum : num_data + num_code ≤ 256) :
    RecoversFromAny num_data num_code ↔ num_code ≤ num_data ∧ num_data ≤ 128 := by
  constructor
  · intro hrecovers
    by_contra hshape
    obtain ⟨i, j, hij⟩ := (exists_point_eq_pole_iff hdata hcode hsum).mpr hshape
    -- empty payloads show it: what is lost depends on the rows only
    obtain ⟨data_shreds, hlen, hw⟩ : ∃ data_shreds : List Bytes,
        data_shreds.length = num_data ∧ ∀ d ∈ data_shreds, d.length = 0 :=
      ⟨List.replicate num_data [], by simp, by simp⟩
    subst hlen
    have hencode := encode_eq_parity num_code hdata hw
    have hcount := length_parity data_shreds
      (generateCauchyMatrix data_shreds.length num_code) num_code 0
    set code_shreds := parity data_shreds
      (generateCauchyMatrix data_shreds.length num_code) num_code 0
    refine hrecovers 0 0 data_shreds code_shreds 0 (lostRows data_shreds.length i j) rfl hw
      hencode (length_lostRows _ j.isLt) (nodup_lostRows _ _ _) ?_ ?_
    · intro row hrow
      rcases mem_lostRows.mp hrow with ⟨hlt, -⟩ | rfl <;> omega
    · have hlost := tryRecover_lostRows 0 0 code_shreds (by omega)
        (by rw [hcount]; exact i.isLt) hij
      rwa [hcount] at hlost
  · rintro ⟨hle, hbytes⟩
    exact recoversFromAny_of_le hdata hle hbytes

/-! ### The shapes that can be used -/

/-- What a batch of this shape relies on. -/
structure CauchyUsable (num_data num_code : ℕ) : Prop where
  points_injective : Function.Injective (points num_data num_code)
  submatrices : EverySubmatrixInvertible num_data num_code
  recovers : RecoversFromAny num_data num_code

/-- **The shapes that the Cauchy matrix supports**: no more code shreds than
data shreds, and at most 128 data shreds. -/
theorem cauchyUsable_iff (hdata : 1 ≤ num_data) (hcode : 1 ≤ num_code)
    (hsum : num_data + num_code ≤ 256) :
    CauchyUsable num_data num_code ↔ num_code ≤ num_data ∧ num_data ≤ 128 := by
  constructor
  · intro h
    exact (points_injective_iff hdata hcode hsum).mp h.points_injective
  · intro hshape
    exact ⟨(points_injective_iff hdata hcode hsum).mpr hshape,
      (submatrix_det_ne_zero_iff hdata hcode hsum).mpr hshape,
      (recoversFromAny_iff hdata hcode hsum).mpr hshape⟩

theorem cauchyUsable_usual : CauchyUsable 32 32 ↔ 32 ≤ 32 ∧ 32 ≤ 128 :=
  cauchyUsable_iff (by decide) (by decide) (by decide)

/-- One data shred and two code shreds: the second code shred is zero. -/
theorem cauchyUsable_wide :
    ¬ ∀ num_data num_code : ℕ, 1 ≤ num_data → 1 ≤ num_code → num_data + num_code ≤ 256 →
      CauchyUsable num_data num_code := by
  intro h
  have hlost : (FecBatch.run 0 0 1 2 ([2].map (rowCall [[7]] [[7], [0]]))).tryRecover =
      .ok none := by decide +kernel
  exact (h 1 2 (by decide) (by decide) (by decide)).recovers 0 0 [[7]] [[7], [0]] 1 [2] rfl
    (by decide) (by decide +kernel) rfl (by decide) (by decide) hlost

end Sg32
