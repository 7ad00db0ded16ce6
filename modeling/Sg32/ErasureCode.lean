/-
Encoding and decoding are linear algebra over GF(2^8).

At each column, `encode` multiplies the data bytes by the Cauchy weights and
`decode` solves the system of the received rows.

* `encode_eq` — what `encode` returns on shreds of one length;
* `decode_returns_iff` — when `decode` panics: a received shred is shorter
  than the first one, and the rows could be inverted;
* `decode_eq_some_iff` — the recovered shreds are the solution of the system;
* `receivedMatrix_det_ne_zero` — any `num_data` rows can be inverted;
* `decode_encode` — any `num_data` shreds of an encoded set recover the data.
-/
import Mathlib.Data.List.GetD
import Sg32.Foundation.CauchyCode
import Sg32.MatrixInversion

namespace Sg32

open Rust Matrix

/-- The byte of shred `k` at column `col`. -/
def byteAt (shreds : List Bytes) (k col : ℕ) : UInt8 := (shreds.getD k []).getD col 0

theorem byteAt_of_lt {shreds : List Bytes} {k col : ℕ} (hk : k < shreds.length)
    (hcol : col < shreds[k].length) : byteAt shreds k col = shreds[k][col] := by
  simp [byteAt, List.getD_eq_getElem?_getD, hk, hcol]

@[simp] theorem byteAt_map_range {f : ℕ → ℕ → UInt8} {n w k col : ℕ} (hk : k < n)
    (hcol : col < w) :
    byteAt ((List.range n).map fun i => (List.range w).map (f i)) k col = f k col := by
  simp [byteAt, List.getD_eq_getElem?_getD, hk, hcol]

/-- Rectangular lists of shreds are equal when their bytes are. -/
theorem ext_byteAt {P Q : List Bytes} {w : ℕ} (hlen : P.length = Q.length)
    (hP : ∀ p ∈ P, p.length = w) (hQ : ∀ q ∈ Q, q.length = w)
    (h : ∀ k < P.length, ∀ col < w, byteAt P k col = byteAt Q k col) : P = Q := by
  refine List.ext_getElem hlen ?_
  intro k hk hk'
  have hPk := hP _ (List.getElem_mem hk)
  have hQk := hQ _ (List.getElem_mem hk')
  refine List.ext_getElem (hPk.trans hQk.symm) ?_
  intro col hc hc'
  have hbyte := h k hk col (hPk ▸ hc)
  rwa [byteAt_of_lt hk hc, byteAt_of_lt hk' hc'] at hbyte

/-! ### Encoder -/

/-- The byte of code shred `i` at column `col`. -/
def parityByte (data_shreds cauchy : List Bytes) (i col : ℕ) : UInt8 :=
  (List.range data_shreds.length).foldl
    (fun sum j => gfAdd sum (gfMul (byteAt data_shreds j col) (byteAt cauchy i j))) 0

/-- The code shreds of data shreds of width `w`. -/
def parity (data_shreds cauchy : List Bytes) (num_code w : ℕ) : List Bytes :=
  (List.range num_code).map fun i => (List.range w).map (parityByte data_shreds cauchy i)

@[simp] theorem length_parity (data_shreds cauchy : List Bytes) (num_code w : ℕ) :
    (parity data_shreds cauchy num_code w).length = num_code := by
  simp [parity]

theorem length_of_mem_parity {data_shreds cauchy : List Bytes} {num_code w : ℕ} {c : Bytes}
    (hc : c ∈ parity data_shreds cauchy num_code w) : c.length = w := by
  obtain ⟨i, -, rfl⟩ := List.mem_map.mp hc
  simp

theorem encode_eq {data_shreds cauchy : List Bytes} {num_code w : ℕ} (hne : data_shreds ≠ [])
    (hw : ∀ d ∈ data_shreds, d.length = w) (hrows : num_code ≤ cauchy.length)
    (hcols : ∀ row ∈ cauchy, row.length = data_shreds.length) :
    encode data_shreds cauchy num_code = .ok (parity data_shreds cauchy num_code w) := by
  have h0 : 0 < data_shreds.length := List.length_pos_of_ne_nil hne
  rw [encode, index_of_lt h0, ok_bind, hw _ (List.getElem_mem h0)]
  refine mapM_ok fun i hi => mapM_ok fun col hcol => foldlM_ok (fun sum j hj => ?_) 0
  have hi' : i < cauchy.length := lt_of_lt_of_le (List.mem_range.mp hi) hrows
  have hj' : j < data_shreds.length := List.mem_range.mp hj
  have hcol' : col < data_shreds[j].length := by
    rw [hw _ (List.getElem_mem hj')]
    exact List.mem_range.mp hcol
  have hwj : j < cauchy[i].length := by rwa [hcols _ (List.getElem_mem hi')]
  rw [index_of_lt hj', ok_bind, index_of_lt hcol', ok_bind, index_of_lt hi', ok_bind,
    index_of_lt hwj, ok_bind, byteAt_of_lt hj' hcol', byteAt_of_lt hi' hwj]
  rfl

/-! ### The Cauchy matrix -/

/-- The point of code row `i`. -/
def point (i : ℕ) : GF256 := ⟨UInt8.ofNat i⟩

/-- The pole of data column `j`. -/
def pole (num_data : ℕ) (j : Fin num_data) : GF256 := ⟨UInt8.ofNat (num_data + j.val)⟩

@[simp] theorem length_generateCauchyMatrix (num_data num_code : ℕ) :
    (generateCauchyMatrix num_data num_code).length = num_code := by
  simp [generateCauchyMatrix]

theorem length_of_mem_generateCauchyMatrix {num_data num_code : ℕ} {row : Bytes}
    (h : row ∈ generateCauchyMatrix num_data num_code) : row.length = num_data := by
  obtain ⟨i, -, rfl⟩ := List.mem_map.mp h
  simp

/-- Encoding gives the parities. -/
theorem encode_eq_parity (num_code : ℕ) {data_shreds : List Bytes} {w : ℕ}
    (hpos : 1 ≤ data_shreds.length) (hw : ∀ d ∈ data_shreds, d.length = w) :
    encode data_shreds (generateCauchyMatrix data_shreds.length num_code) num_code =
      .ok (parity data_shreds (generateCauchyMatrix data_shreds.length num_code) num_code w) :=
  encode_eq (List.ne_nil_of_length_pos hpos) hw (by simp) fun _ =>
    length_of_mem_generateCauchyMatrix

theorem eq_parity_of_encode {num_data num_code : ℕ} {data_shreds code_shreds : List Bytes} {w : ℕ}
    (hlen : data_shreds.length = num_data) (hpos : 1 ≤ num_data)
    (hw : ∀ d ∈ data_shreds, d.length = w)
    (h : encode data_shreds (generateCauchyMatrix num_data num_code) num_code = .ok code_shreds) :
    code_shreds = parity data_shreds (generateCauchyMatrix num_data num_code) num_code w := by
  subst hlen
  exact Except.ok.inj (h.symm.trans (encode_eq_parity num_code hpos hw))

theorem byteAt_generateCauchyMatrix {num_data num_code i : ℕ} (hi : i < num_code)
    (j : Fin num_data) :
    (⟨byteAt (generateCauchyMatrix num_data num_code) i j.val⟩ : GF256) =
      (point i + pole num_data j)⁻¹ := by
  rw [generateCauchyMatrix, byteAt_map_range hi j.isLt]
  rfl

theorem ofNat_byte_inj {a b : ℕ} (ha : a < 256) (hb : b < 256)
    (h : (⟨UInt8.ofNat a⟩ : GF256) = ⟨UInt8.ofNat b⟩) : a = b := by
  have hnat := congrArg (fun x : GF256 => x.byte.toNat) h
  simpa [UInt8.toNat_ofNat', Nat.mod_eq_of_lt ha, Nat.mod_eq_of_lt hb] using hnat

/-- One code byte is a row of the code times a column of data bytes. -/
theorem mk_parityByte {data_shreds : List Bytes} {num_code i col : ℕ} (hi : i < num_code) :
    (⟨parityByte data_shreds (generateCauchyMatrix data_shreds.length num_code) i col⟩ : GF256) =
      ∑ j : Fin data_shreds.length,
        (point i + pole data_shreds.length j)⁻¹ * ⟨byteAt data_shreds j.val col⟩ := by
  rw [parityByte, mk_foldl_gfAdd, GF256.mk_zero, zero_add, ← List.map_coe_finRange_eq_range,
    List.map_map, ← Fin.sum_univ_def]
  refine Finset.sum_congr rfl ?_
  intro j _
  rw [Function.comp_apply, GF256.mk_gfMul, byteAt_generateCauchyMatrix hi, mul_comm]

/-! ### Decoder -/

/-- The system that the received rows put on the data bytes of a column. -/
def receivedMatrix (num_data : ℕ) (row_indices : List ℕ) :
    Matrix (Fin num_data) (Fin num_data) GF256 :=
  CauchyCode.selectedRows point (pole num_data) fun k => row_indices.getD k.val 0

/-- The bytes of a column, as a vector. -/
def column (n : ℕ) (shreds : List Bytes) (col : ℕ) : Fin n → GF256 :=
  fun k => ⟨byteAt shreds k.val col⟩

theorem decodeRow_eq {num_data num_code idx : ℕ} (hidx : idx < num_data + num_code) :
    ∃ row : Vector UInt8 num_data,
      decodeRow (generateCauchyMatrix num_data num_code) num_data idx = .ok row ∧
      ∀ j : Fin num_data,
        (⟨row[j]⟩ : GF256) = CauchyCode.generatorRow point (pole num_data) idx j := by
  rw [decodeRow]
  split_ifs with hdata
  · refine ⟨_, rfl, ?_⟩
    intro j
    simp only [CauchyCode.generatorRow, if_pos hdata, Fin.getElem_fin, Vector.getElem_ofFn]
    split_ifs <;> rfl
  · -- a code row is read from the Cauchy matrix
    have hi : idx - num_data < num_code := by omega
    have hrow : idx - num_data < (generateCauchyMatrix num_data num_code).length := by
      simpa using hi
    have hlen := length_of_mem_generateCauchyMatrix (List.getElem_mem hrow)
    rw [index_of_lt hrow, ok_bind, dif_pos hlen]
    refine ⟨_, rfl, ?_⟩
    intro j
    rw [CauchyCode.generatorRow, if_neg hdata, ← byteAt_generateCauchyMatrix hi,
      byteAt_of_lt hrow (by rw [hlen]; exact j.isLt)]
    rfl

/-- The rows that `decode` inverts. -/
theorem mapM_decodeRow {num_data num_code : ℕ} {row_indices : List ℕ}
    (hlen : row_indices.length = num_data)
    (hidx : ∀ idx ∈ row_indices, idx < num_data + num_code) :
    ∃ (rows : List (Vector UInt8 num_data)) (h : rows.length = num_data),
      row_indices.mapM (decodeRow (generateCauchyMatrix num_data num_code) num_data) = .ok rows ∧
      toMatrix (⟨⟨rows⟩, h⟩ : ByteMatrix num_data num_data) =
        receivedMatrix num_data row_indices := by
  choose! row hrow hentry using fun idx (h : idx < num_data + num_code) => decodeRow_eq h
  have hmap : row_indices.mapM (decodeRow (generateCauchyMatrix num_data num_code) num_data) =
      .ok (row_indices.map row) := mapM_ok fun idx h => hrow idx (hidx idx h)
  refine ⟨_, by simpa using hlen, hmap, ?_⟩
  funext k j
  have hk : k.val < row_indices.length := by rw [hlen]; exact k.isLt
  rw [receivedMatrix, CauchyCode.selectedRows, List.getD_eq_getElem _ _ hk,
    ← hentry _ (hidx _ (List.getElem_mem hk)) j]
  show GF256.mk (⟨⟨row_indices.map row⟩, _⟩ : ByteMatrix num_data num_data)[k][j] = _
  simp

section Decode

variable {num_data num_code : ℕ} {received : List Bytes} {row_indices : List ℕ}

/-- A product with the received shreds panics when one of them is shorter
than the columns asked for. -/
theorem returns_multiplyReceived (inverted : ByteMatrix num_data num_data)
    (hreceived : received.length = num_data) (h0 : 0 < num_data) (w : ℕ) :
    Returns (multiplyReceived inverted received w) ↔ ∀ shred ∈ received, w ≤ shred.length := by
  have hread : ∀ (i k : Fin num_data) (col : ℕ) (sum : UInt8),
      Returns (do
        let shred ← index received k.val
        let byte ← index shred col
        pure (gfAdd sum (gfMul inverted[i][k] byte)) : Checked UInt8) ↔
      col < (received.getD k.val []).length := by
    intro i k col sum
    have hk : k.val < received.length := by rw [hreceived]; exact k.isLt
    rw [index_of_lt hk, ok_bind, returns_bind, List.getD_eq_getElem _ _ hk, ← returns_index]
    exact ⟨fun ⟨b, hb, _⟩ => ⟨b, hb⟩, fun ⟨b, hb⟩ => ⟨b, hb, returns_pure _⟩⟩
  -- all three loops return exactly if the innermost read does
  have hloops : Returns (multiplyReceived inverted received w) ↔
      ∀ i ∈ List.finRange num_data, ∀ col ∈ List.range w, ∀ k ∈ List.finRange num_data,
        col < (received.getD k.val []).length := by
    rw [multiplyReceived, returns_mapM]
    refine forall₂_congr ?_
    intro i _
    rw [returns_mapM]
    exact forall₂_congr fun col _ => returns_foldlM (fun sum k _ => hread i k col sum) 0
  rw [hloops]
  simp only [List.mem_finRange, true_implies, List.mem_range]
  constructor
  · intro h shred hshred
    obtain ⟨k, hk, rfl⟩ := List.getElem_of_mem hshred
    by_contra hlt
    have hcol := h ⟨0, h0⟩ received[k].length (by omega) ⟨k, by rwa [hreceived] at hk⟩
    rw [List.getD_eq_getElem _ _ hk] at hcol
    exact lt_irrefl _ hcol
  · intro h _ col hcol k
    have hk : k.val < received.length := by rw [hreceived]; exact k.isLt
    rw [List.getD_eq_getElem _ _ hk]
    exact lt_of_lt_of_le hcol (h _ (List.getElem_mem hk))

/-- The product, when every received shred is long enough. -/
theorem multiplyReceived_ok (inverted : ByteMatrix num_data num_data)
    (hreceived : received.length = num_data) {w : ℕ}
    (hlong : ∀ shred ∈ received, w ≤ shred.length) :
    ∃ R, multiplyReceived inverted received w = .ok R ∧ R.length = num_data ∧
      (∀ p ∈ R, p.length = w) ∧
      ∀ col < w, column num_data R col = toMatrix inverted *ᵥ column num_data received col := by
  set f : Fin num_data → ℕ → UInt8 := fun i col =>
    (List.finRange num_data).foldl
      (fun sum k => gfAdd sum (gfMul inverted[i][k] (byteAt received k.val col))) 0 with hf
  refine ⟨(List.finRange num_data).map fun i => (List.range w).map (f i), ?_, by simp, ?_, ?_⟩
  · refine mapM_ok fun i _ => mapM_ok fun col hcol => foldlM_ok (fun sum k _ => ?_) 0
    have hk : k.val < received.length := by rw [hreceived]; exact k.isLt
    have hc : col < received[k.val].length :=
      lt_of_lt_of_le (List.mem_range.mp hcol) (hlong _ (List.getElem_mem hk))
    rw [index_of_lt hk, ok_bind, index_of_lt hc, ok_bind, byteAt_of_lt hk hc]
    rfl
  · intro p hp
    obtain ⟨i, -, rfl⟩ := List.mem_map.mp hp
    simp
  · -- the inner loop is a sum in the field, so a column is a matrix product
    intro col hcol
    funext i
    have hbyte : byteAt ((List.finRange num_data).map fun i => (List.range w).map (f i)) i.val col
        = f i col := by
      simp [byteAt, List.getD_eq_getElem?_getD, hcol]
    rw [column, hbyte, hf, mk_foldl_gfAdd, GF256.mk_zero, zero_add, ← Fin.sum_univ_def]
    rfl

variable (hreceived : received.length = num_data) (hindices : row_indices.length = num_data)
  (hidx : ∀ idx ∈ row_indices, idx < num_data + num_code) (h0 : 0 < received.length)

include hreceived hindices hidx h0

theorem decode_singular (hdet : (receivedMatrix num_data row_indices).det = 0) :
    decode received row_indices (generateCauchyMatrix num_data num_code) num_data
      = .ok none := by
  obtain ⟨rows, hrows, hmap, hmatrix⟩ := mapM_decodeRow hindices hidx
  have hnone : gfMatrixInvert (⟨⟨rows⟩, hrows⟩ : ByteMatrix num_data num_data) = none := by
    by_contra hsome
    exact (gfMatrixInvert_isSome_iff _).mp (Option.isSome_iff_ne_none.mpr hsome)
      (hmatrix ▸ hdet)
  rw [decode, if_neg (by simp [hreceived, hindices]), index_of_lt h0, ok_bind, hmap, ok_bind,
    dif_pos hrows, hnone]
  rfl

theorem decode_invertible (hdet : (receivedMatrix num_data row_indices).det ≠ 0) :
    ∃ inverted : ByteMatrix num_data num_data,
      toMatrix inverted * receivedMatrix num_data row_indices = 1 ∧
      decode received row_indices (generateCauchyMatrix num_data num_code) num_data =
        (multiplyReceived inverted received received[0].length >>= fun R => .ok (some R)) := by
  obtain ⟨rows, hrows, hmap, hmatrix⟩ := mapM_decodeRow hindices hidx
  obtain ⟨inverted, hinv⟩ := Option.isSome_iff_exists.mp
    ((gfMatrixInvert_isSome_iff (⟨⟨rows⟩, hrows⟩ : ByteMatrix num_data num_data)).mpr
      (hmatrix ▸ hdet))
  refine ⟨inverted, hmatrix ▸ gfMatrixInvert_some hinv, ?_⟩
  rw [decode, if_neg (by simp [hreceived, hindices]), index_of_lt h0, ok_bind, hmap, ok_bind,
    dif_pos hrows, hinv]
  rfl

/-- When `decode` panics: the rows can be inverted and some received shred is
shorter than the first one. -/
theorem decode_returns_iff :
    Returns (decode received row_indices (generateCauchyMatrix num_data num_code) num_data) ↔
      (receivedMatrix num_data row_indices).det = 0 ∨
        ∀ shred ∈ received, received[0].length ≤ shred.length := by
  by_cases hdet : (receivedMatrix num_data row_indices).det = 0
  · simp [decode_singular hreceived hindices hidx h0 hdet, hdet]
  · obtain ⟨inverted, -, hdecode⟩ := decode_invertible hreceived hindices hidx h0 hdet
    rw [hdecode, returns_bind, ← returns_multiplyReceived inverted hreceived (hreceived ▸ h0)]
    simp only [hdet, false_or]
    exact ⟨fun ⟨R, hR, _⟩ => ⟨R, hR⟩, fun ⟨R, hR⟩ => ⟨R, hR, returns_ok _⟩⟩

/-- The recovered shreds are the solution of the system of the received
rows, column by column. -/
theorem decode_eq_some_iff (hdet : (receivedMatrix num_data row_indices).det ≠ 0)
    (hlong : ∀ shred ∈ received, received[0].length ≤ shred.length) {P : List Bytes} :
    decode received row_indices (generateCauchyMatrix num_data num_code) num_data
        = .ok (some P) ↔
      P.length = num_data ∧ (∀ p ∈ P, p.length = received[0].length) ∧
        ∀ col < received[0].length,
          receivedMatrix num_data row_indices *ᵥ column num_data P col
            = column num_data received col := by
  obtain ⟨inverted, hleft, hdecode⟩ := decode_invertible hreceived hindices hidx h0 hdet
  have hright := mul_eq_one_comm.mp hleft
  obtain ⟨R, hR, hRlen, hRw, hRcol⟩ := multiplyReceived_ok inverted hreceived hlong
  rw [hdecode, hR, ok_bind]
  -- the product with the inverse is the one solution of the system
  constructor
  · intro h
    cases h
    refine ⟨hRlen, hRw, ?_⟩
    intro col hcol
    rw [hRcol col hcol, mulVec_mulVec, hright, one_mulVec]
  · rintro ⟨hPlen, hPw, hP⟩
    have hPR : R = P := by
      refine ext_byteAt (hRlen.trans hPlen.symm) hRw hPw ?_
      intro k hk col hcol
      have hsol : column num_data R col = column num_data P col := by
        rw [hRcol col hcol, ← hP col hcol, mulVec_mulVec, hleft, one_mulVec]
      exact congrArg GF256.byte (congrFun hsol ⟨k, by rwa [hRlen] at hk⟩)
    rw [hPR]

/-- When decoding returns given shreds: it does not panic, and they solve the
system. -/
theorem decode_eq_some_iff_of_det (hdet : (receivedMatrix num_data row_indices).det ≠ 0)
    {P : List Bytes} :
    decode received row_indices (generateCauchyMatrix num_data num_code) num_data
        = .ok (some P) ↔
      (∀ shred ∈ received, received[0].length ≤ shred.length) ∧
      P.length = num_data ∧ (∀ p ∈ P, p.length = received[0].length) ∧
        ∀ col < received[0].length,
          receivedMatrix num_data row_indices *ᵥ column num_data P col
            = column num_data received col := by
  constructor
  · intro h
    have hreturns := (decode_returns_iff hreceived hindices hidx h0).mp ⟨_, h⟩
    have hlong := hreturns.resolve_left hdet
    exact ⟨hlong, (decode_eq_some_iff hreceived hindices hidx h0 hdet hlong).mp h⟩
  · rintro ⟨hlong, h⟩
    exact (decode_eq_some_iff hreceived hindices hidx h0 hdet hlong).mpr h

end Decode

/-! ### Any `num_data` shreds of a set -/

section Encoded

variable {num_data num_code : ℕ} {row_indices : List ℕ}

/-- A row of the received system, applied to candidate data shreds: the shred
itself, or the code byte the candidates would have. -/
theorem mulVec_receivedMatrix {P : List Bytes} (hP : P.length = num_data)
    (hidx : ∀ idx ∈ row_indices, idx < num_data + num_code) (k : Fin num_data)
    (hk : k.val < row_indices.length) (col : ℕ) :
    (receivedMatrix num_data row_indices *ᵥ column num_data P col) k =
      if row_indices[k.val] < num_data then ⟨byteAt P row_indices[k.val] col⟩
      else ⟨parityByte P (generateCauchyMatrix num_data num_code)
        (row_indices[k.val] - num_data) col⟩ := by
  subst hP
  have hget : row_indices.getD k.val 0 = row_indices[k.val] := List.getD_eq_getElem _ _ hk
  have hbound := hidx _ (List.getElem_mem hk)
  split_ifs with hdata
  · rw [receivedMatrix, CauchyCode.mulVec_selectedRows_verbatim _
      (j := ⟨row_indices[k.val], hdata⟩) (by rw [hget])]
    rfl
  · rw [receivedMatrix, CauchyCode.mulVec_selectedRows_parity _ (by rw [hget]; omega), hget,
      mk_parityByte (by omega)]
    exact Finset.sum_congr rfl fun j _ => mul_comm _ _

/-- Every row of the received matrix is one of the indices. -/
theorem getD_row_mem (hlen : row_indices.length = num_data) (k : Fin num_data) :
    row_indices.getD k.val 0 ∈ row_indices := by
  rw [List.getD_eq_getElem row_indices 0 (hlen ▸ k.isLt)]
  exact List.getElem_mem _

theorem getD_row_injective (hlen : row_indices.length = num_data) (hnodup : row_indices.Nodup) :
    Function.Injective fun k : Fin num_data => row_indices.getD k.val 0 := by
  intro k l hkl
  have hget : ∀ k : Fin num_data,
      row_indices.getD k.val 0 = row_indices.get ⟨k.val, hlen ▸ k.isLt⟩ :=
    fun k => List.getD_eq_getElem _ _ _
  simp only [hget] at hkl
  exact Fin.ext ((hnodup.getElem_inj_iff).mp hkl)

/-- Points and poles stay apart as long as the bytes do not wrap around. -/
theorem receivedMatrix_det_ne_zero (hcode : num_code ≤ num_data) (hdata : num_data ≤ 128)
    (hlen : row_indices.length = num_data) (hnodup : row_indices.Nodup)
    (hidx : ∀ idx ∈ row_indices, idx < num_data + num_code) :
    (receivedMatrix num_data row_indices).det ≠ 0 := by
  rw [Ne, ← exists_mulVec_eq_zero_iff]
  rintro ⟨v, hv, hzero⟩
  have hlt : ∀ k : Fin num_data, row_indices.getD k.val 0 < num_data + num_code := fun k =>
    hidx _ (getD_row_mem hlen k)
  have hinj := getD_row_injective hlen hnodup
  refine hv (CauchyCode.selectedRows_injective hinj ?_ ?_ ?_ hzero)
  · intro i j hij
    have := ofNat_byte_inj (by omega) (by omega) hij
    exact Fin.ext (by omega)
  · intro k hk l hl hkl
    have hk' : num_data ≤ row_indices.getD k.val 0 := (Finset.mem_filter.mp hk).2
    have hl' : num_data ≤ row_indices.getD l.val 0 := (Finset.mem_filter.mp hl).2
    have hkb := hlt k
    have hlb := hlt l
    have := ofNat_byte_inj (by omega) (by omega) hkl
    exact hinj (show row_indices.getD k.val 0 = row_indices.getD l.val 0 by omega)
  · intro k hk j h
    have hk' : num_data ≤ row_indices.getD k.val 0 := (Finset.mem_filter.mp hk).2
    have hkb := hlt k
    have := ofNat_byte_inj (by omega) (by omega) (GF256.add_eq_zero_iff.mp h)
    omega

/-- The shred of an encoded set that an index names. -/
def shredAt (data_shreds code_shreds : List Bytes) (idx : ℕ) : Bytes :=
  if idx < data_shreds.length then data_shreds.getD idx []
  else code_shreds.getD (idx - data_shreds.length) []

theorem length_shredAt {data_shreds code_shreds : List Bytes} {w idx : ℕ}
    (hdata : ∀ d ∈ data_shreds, d.length = w) (hcode : ∀ c ∈ code_shreds, c.length = w)
    (hidx : idx < data_shreds.length + code_shreds.length) :
    (shredAt data_shreds code_shreds idx).length = w := by
  rw [shredAt]
  split_ifs with h
  · rw [List.getD_eq_getElem _ _ h]
    exact hdata _ (List.getElem_mem h)
  · have h' : idx - data_shreds.length < code_shreds.length := by omega
    rw [List.getD_eq_getElem _ _ h']
    exact hcode _ (List.getElem_mem h')

/-- Data shreds solve the system of a column when every code row received is
their parity there; the data rows say nothing. -/
theorem mulVec_eq_column_iff {data_shreds code_shreds : List Bytes}
    (hrows : row_indices.length = data_shreds.length)
    (hidx : ∀ idx ∈ row_indices, idx < data_shreds.length + num_code) (col : ℕ) :
    receivedMatrix data_shreds.length row_indices *ᵥ column data_shreds.length data_shreds col =
        column data_shreds.length (row_indices.map (shredAt data_shreds code_shreds)) col ↔
      ∀ i, data_shreds.length + i ∈ row_indices →
        parityByte data_shreds (generateCauchyMatrix data_shreds.length num_code) i col =
          byteAt code_shreds i col := by
  have hcolumn : ∀ (k : Fin data_shreds.length) (hk : k.val < row_indices.length),
      column data_shreds.length (row_indices.map (shredAt data_shreds code_shreds)) col k =
        ⟨(shredAt data_shreds code_shreds row_indices[k.val]).getD col 0⟩ := by
    intro k hk
    have hget : (row_indices.map (shredAt data_shreds code_shreds)).getD k.val [] =
        shredAt data_shreds code_shreds row_indices[k.val] := by
      rw [List.getD_eq_getElem _ _ (by simpa using hk), List.getElem_map]
    rw [column, byteAt, hget]
  constructor
  · intro hsolves i hi
    obtain ⟨k, hk, hget⟩ := List.getElem_of_mem hi
    have heq := congrFun hsolves ⟨k, hrows ▸ hk⟩
    rw [mulVec_receivedMatrix rfl hidx _ hk, hcolumn _ hk] at heq
    simp only [hget, shredAt, Nat.not_lt.mpr (Nat.le_add_right data_shreds.length i), if_false,
      Nat.add_sub_cancel_left, GF256.mk.injEq] at heq
    exact heq
  · intro hparity
    funext k
    have hk : k.val < row_indices.length := by rw [hrows]; exact k.isLt
    rw [mulVec_receivedMatrix rfl hidx _ hk, hcolumn k hk, shredAt]
    split_ifs with hdata
    · -- a data row: the candidate's own byte
      rfl
    · obtain ⟨i, hi⟩ := Nat.exists_eq_add_of_le (Nat.not_lt.mp hdata)
      rw [hi, Nat.add_sub_cancel_left, hparity i (hi ▸ List.getElem_mem hk)]
      rfl

/-- Decoding `num_data` different shreds of an encoded set recovers its data. -/
theorem decode_shredAt (hcode : num_code ≤ num_data) (hdata : num_data ≤ 128)
    {data_shreds : List Bytes} (hlen : data_shreds.length = num_data) (hne : 0 < num_data)
    {w : ℕ} (hw : ∀ d ∈ data_shreds, d.length = w)
    (hrows : row_indices.length = num_data) (hnodup : row_indices.Nodup)
    (hidx : ∀ idx ∈ row_indices, idx < num_data + num_code) :
    decode (row_indices.map (shredAt data_shreds
        (parity data_shreds (generateCauchyMatrix num_data num_code) num_code w)))
      row_indices (generateCauchyMatrix num_data num_code) num_data
      = .ok (some data_shreds) := by
  subst hlen
  set code := parity data_shreds (generateCauchyMatrix data_shreds.length num_code) num_code w
    with hcd
  set received := row_indices.map (shredAt data_shreds code) with hr
  have hlenr : ∀ shred ∈ received, shred.length = w := by
    intro shred hshred
    obtain ⟨idx, hmem, rfl⟩ := List.mem_map.mp hshred
    refine length_shredAt hw (fun c hc => length_of_mem_parity hc) ?_
    rw [hcd, length_parity]
    exact hidx idx hmem
  have h0 : 0 < received.length := by rw [hr, List.length_map]; omega
  have hfirst := hlenr _ (List.getElem_mem h0)
  refine (decode_eq_some_iff (by rw [hr, List.length_map, hrows]) hrows hidx h0
    (receivedMatrix_det_ne_zero hcode hdata hrows hnodup hidx)
    (fun shred hshred => by rw [hfirst, hlenr shred hshred])).mpr ⟨rfl, ?_, ?_⟩
  · intro p hp
    rw [hfirst, hw p hp]
  · intro col hcol
    rw [hfirst] at hcol
    refine (mulVec_eq_column_iff hrows hidx col).mpr ?_
    -- the code rows are parities by construction
    intro i hi
    have hbound := hidx _ hi
    exact (byteAt_map_range (by omega) hcol).symm

end Encoded

/-- **Any-k-of-n recovery**: whatever `num_data` different shreds of an encoded
set arrive, in whatever order, decoding them returns the data shreds. -/
theorem decode_encode {num_data num_code : ℕ} (hpos : 1 ≤ num_code) (hcode : num_code ≤ num_data)
    (hdata : num_data ≤ 128) {data_shreds : List Bytes} (hlen : data_shreds.length = num_data)
    {w : ℕ} (hw : ∀ d ∈ data_shreds, d.length = w) {row_indices : List ℕ}
    (hrows : row_indices.length = num_data) (hnodup : row_indices.Nodup)
    (hidx : ∀ idx ∈ row_indices, idx < num_data + num_code) :
    ∃ code_shreds,
      encode data_shreds (generateCauchyMatrix num_data num_code) num_code = .ok code_shreds ∧
      decode (row_indices.map (shredAt data_shreds code_shreds)) row_indices
        (generateCauchyMatrix num_data num_code) num_data = .ok (some data_shreds) := by
  subst hlen
  have hne : 1 ≤ data_shreds.length := le_trans hpos hcode
  exact ⟨_, encode_eq_parity num_code hne hw,
    decode_shredAt hcode hdata rfl hne hw hrows hnodup hidx⟩

theorem decode_encode_three : ∃ code_shreds,
    encode [[1, 2], [3, 4], [5, 6]] (generateCauchyMatrix 3 2) 2 = .ok code_shreds ∧
    decode ([4, 1, 3].map (shredAt [[1, 2], [3, 4], [5, 6]] code_shreds)) [4, 1, 3]
      (generateCauchyMatrix 3 2) 3 = .ok (some [[1, 2], [3, 4], [5, 6]]) :=
  decode_encode (by decide) (by decide) (by decide) rfl (w := 2) (by decide) rfl (by decide)
    (by decide)

end Sg32
