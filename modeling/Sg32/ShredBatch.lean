/-
Adding a shred to its batch (`process_shred` in `main.rs`).

The first shred of an erasure set creates the batch and fixes its dimensions;
each shred is stored at the position that its header names.

* `Holds` — the batch has exactly the shreds `rows` of an erasure set;
* `holds_addShred` — adding a shred of the set adds its row;
* `receivedCount_of_holds` — the batch counts different rows;
* `tryRecover_of_holds` — as many rows as data shreds recover the data;
* `landsOnlyAtOwn_iff` — when a data shred is stored at its own position only.
-/
import Sg32.FecBatch
import Sg32.Shred

namespace Sg32

open Rust

/-- The dimensions of a batch created by this shred: a code shred names them,
for a data shred they are the usual ones. -/
def batchDims : Shred → ℕ × ℕ
  | .merkleCode _ coding_header _ _ _ =>
    (coding_header.num_data_shreds.toNat, coding_header.num_coding_shreds.toNat)
  | _ => (NUM_DATA_SHREDS, NUM_CODE_SHREDS)

namespace FecBatch

/-- `a.saturating_sub(b)`. -/
def saturatingSub (a b : UInt64) : UInt64 := if b ≤ a then a - b else 0

/-- Store a shred at the position its header names. -/
def addShred (build : Build) (batch : FecBatch) : Shred → Checked FecBatch
  | .merkleData common_header data_header _ _ data => do
    let data_index ← subU32 build common_header.index common_header.fec_set_index
    let batch := (batch.addDataShred data_index data).1
    if batch.parent_slot = 0 then
      pure { batch with
        parent_slot := saturatingSub common_header.slot data_header.parent_offset.toUInt64 }
    else pure batch
  | .merkleCode _ coding_header _ _ code =>
    pure (batch.addCodeShred coding_header.position.toUInt32 code).1

/-! ### Batches of one erasure set -/

/-- The batch has the shreds `rows` of the erasure set with these data and code
payloads, and nothing else. -/
structure Holds (data_shreds code_shreds : List Bytes) (rows : Finset ℕ) (batch : FecBatch) :
    Prop where
  num_data : batch.num_data = data_shreds.length
  num_code : batch.num_code = code_shreds.length
  data : ∀ i < data_shreds.length,
    batch.data_shreds[i]? = some (if i ∈ rows then data_shreds[i]? else none)
  code : ∀ i < code_shreds.length,
    batch.code_shreds[i]? = some (if data_shreds.length + i ∈ rows then code_shreds[i]? else none)

variable {data_shreds code_shreds : List Bytes} {rows : Finset ℕ} {batch : FecBatch}

theorem holds_new (data_shreds code_shreds : List Bytes) (slot : UInt64)
    (fec_set_index : UInt32) :
    Holds data_shreds code_shreds ∅
      (new slot fec_set_index data_shreds.length code_shreds.length) where
  num_data := rfl
  num_code := rfl
  data i hi := by simp [new, hi]
  code i hi := by simp [new, hi]

theorem holds_addDataShred (h : Holds data_shreds code_shreds rows batch) {data_index : UInt32}
    {data : Bytes} (hdata : data_shreds[data_index.toNat]? = some data) :
    Holds data_shreds code_shreds (insert data_index.toNat rows)
      (batch.addDataShred data_index data).1 where
  num_data := h.num_data
  num_code := h.num_code
  data i hi := by
    have hlen : batch.data_shreds.length = batch.num_data := batch.length_data_shreds
    simp only [addDataShred, getElem?_insertFirst hlen, h.data i hi, Finset.mem_insert]
    by_cases heq : i = data_index.toNat
    · subst heq
      by_cases hmem : data_index.toNat ∈ rows <;> simp [hmem, hdata]
    · simp [heq]
  code i hi := by
    have hlt := (List.getElem?_eq_some_iff.mp hdata).choose
    have hne : data_shreds.length + i ≠ data_index.toNat := by omega
    simp only [addDataShred, h.code i hi, Finset.mem_insert, hne, false_or]

theorem holds_addCodeShred (h : Holds data_shreds code_shreds rows batch)
    {code_position : UInt32} {code : Bytes}
    (hcode : code_shreds[code_position.toNat]? = some code) :
    Holds data_shreds code_shreds (insert (data_shreds.length + code_position.toNat) rows)
      (batch.addCodeShred code_position code).1 where
  num_data := h.num_data
  num_code := h.num_code
  data i hi := by
    have hne : i ≠ data_shreds.length + code_position.toNat := by omega
    simp only [addCodeShred, h.data i hi, Finset.mem_insert, hne, false_or]
  code i hi := by
    have hlen : batch.code_shreds.length = batch.num_code := batch.length_code_shreds
    simp only [addCodeShred, getElem?_insertFirst hlen, h.code i hi, Finset.mem_insert,
      Nat.add_left_cancel_iff]
    by_cases heq : i = code_position.toNat
    · subst heq
      by_cases hmem : data_shreds.length + code_position.toNat ∈ rows <;> simp [hmem, hcode]
    · simp [heq]

/-- The shred is the one of its erasure set that the row names, at the place
its header gives. -/
def IsRow (data_shreds code_shreds : List Bytes) (row : ℕ) : Shred → Prop
  | .merkleData common_header _ _ _ data =>
    common_header.index.toNat = common_header.fec_set_index.toNat + row ∧
      data_shreds[row]? = some data
  | .merkleCode _ coding_header _ _ code =>
    row = data_shreds.length + coding_header.position.toNat ∧
      code_shreds[coding_header.position.toNat]? = some code

/-- Adding a shred of the set adds its row, whether it is new or not. -/
theorem holds_addShred (build : Build) (h : Holds data_shreds code_shreds rows batch) {row : ℕ}
    {shred : Shred} (hrow : IsRow data_shreds code_shreds row shred) :
    ∃ batch', batch.addShred build shred = .ok batch' ∧
      Holds data_shreds code_shreds (insert row rows) batch' ∧
      batch'.slot = batch.slot := by
  cases shred with
  | merkleData common_header data_header merkle_root merkle_proof data =>
    obtain ⟨hindex, hdata⟩ := hrow
    obtain ⟨hsub, hnat⟩ := subU32_ok build
      (show common_header.fec_set_index.toNat ≤ common_header.index.toNat by omega)
    have hpos : (common_header.index - common_header.fec_set_index).toNat = row := by omega
    have hadd := holds_addDataShred h (by rw [hpos]; exact hdata)
    rw [hpos] at hadd
    simp only [addShred, hsub, ok_bind]
    -- the parent slot is noted once; the shreds are the same either way
    split_ifs with hparent
    · exact ⟨_, rfl, ⟨hadd.num_data, hadd.num_code, hadd.data, hadd.code⟩, rfl⟩
    · exact ⟨_, rfl, hadd, rfl⟩
  | merkleCode common_header coding_header merkle_root merkle_proof code =>
    obtain ⟨rfl, hcode⟩ := hrow
    have hpos : coding_header.position.toUInt32.toNat = coding_header.position.toNat :=
      UInt16.toNat_toUInt32 _
    have hadd := holds_addCodeShred h (by rw [hpos]; exact hcode)
    rw [hpos] at hadd
    exact ⟨_, rfl, hadd, rfl⟩

/-- The positions that are present, counted. -/
theorem countPresent_eq_card (first : ℕ) {shreds : List (Option Bytes)} {rows : Finset ℕ}
    (h : ∀ row, row ∈ rows ↔ first ≤ row ∧ ∃ bytes, shreds[row - first]? = some (some bytes)) :
    countPresent shreds = rows.card := by
  have hnodup : ((presentShreds first shreds).map Prod.fst).Nodup := by
    rw [List.Nodup, List.pairwise_map]
    exact (presentShreds_sorted first shreds).imp fun hlt => hlt.ne
  have hrows : ((presentShreds first shreds).map Prod.fst).toFinset = rows := by
    ext row
    simp [h, mem_presentShreds]
  rw [← hrows, List.toFinset_card_of_nodup hnodup, List.length_map, length_presentShreds]

section Rows

variable (h : Holds data_shreds code_shreds rows batch)
include h

theorem countPresent_data_of_holds :
    countPresent batch.data_shreds = (rows.filter (· < data_shreds.length)).card := by
  refine countPresent_eq_card 0 ?_
  intro row
  rw [Finset.mem_filter, Nat.sub_zero]
  constructor
  · rintro ⟨hmem, hlt⟩
    exact ⟨Nat.zero_le _, data_shreds[row], by simp [h.data row hlt, hmem, hlt]⟩
  · rintro ⟨-, bytes, hbytes⟩
    have hlt := (List.getElem?_eq_some_iff.mp hbytes).choose
    rw [batch.length_data_shreds, h.num_data] at hlt
    rw [h.data row hlt] at hbytes
    by_cases hmem : row ∈ rows
    · exact ⟨hmem, hlt⟩
    · simp [hmem] at hbytes

theorem countPresent_code_of_holds (hrows : ∀ row ∈ rows,
      row < data_shreds.length + code_shreds.length) :
    countPresent batch.code_shreds = (rows.filter (¬ · < data_shreds.length)).card := by
  refine countPresent_eq_card data_shreds.length ?_
  intro row
  rw [Finset.mem_filter, Nat.not_lt]
  constructor
  · rintro ⟨hmem, hle⟩
    have hlt : row - data_shreds.length < code_shreds.length := by
      have := hrows row hmem
      omega
    refine ⟨hle, code_shreds[row - data_shreds.length], ?_⟩
    rw [h.code _ hlt, Nat.add_sub_cancel' hle, if_pos hmem, List.getElem?_eq_getElem hlt]
  · rintro ⟨hle, bytes, hbytes⟩
    have hlt := (List.getElem?_eq_some_iff.mp hbytes).choose
    rw [batch.length_code_shreds, h.num_code] at hlt
    rw [h.code _ hlt, Nat.add_sub_cancel' hle] at hbytes
    by_cases hmem : row ∈ rows
    · exact ⟨hmem, hle⟩
    · simp [hmem] at hbytes

/-- A batch counts the different rows it has. -/
theorem receivedCount_of_holds (hrows : ∀ row ∈ rows,
      row < data_shreds.length + code_shreds.length) :
    batch.receivedCount = rows.card := by
  rw [receivedCount, countPresent_data_of_holds h, countPresent_code_of_holds h hrows,
    Finset.card_filter_add_card_filter_not]

theorem data_of_holds {i : ℕ} {b : Bytes} (hb : batch.data_shreds[i]? = some (some b)) :
    data_shreds[i]? = some b := by
  have hlt := (List.getElem?_eq_some_iff.mp hb).choose
  rw [batch.length_data_shreds, h.num_data] at hlt
  rw [h.data i hlt] at hb
  by_cases hmem : i ∈ rows
  · simpa [hmem] using hb
  · simp [hmem] at hb

theorem code_of_holds {i : ℕ} {b : Bytes} (hb : batch.code_shreds[i]? = some (some b)) :
    code_shreds[i]? = some b := by
  have hlt := (List.getElem?_eq_some_iff.mp hb).choose
  rw [batch.length_code_shreds, h.num_code] at hlt
  rw [h.code i hlt] at hb
  by_cases hmem : data_shreds.length + i ∈ rows
  · simpa [hmem] using hb
  · simp [hmem] at hb

end Rows

/-! ### Recovery -/

/-- The shreds selected are the ones that their rows name. -/
theorem selectedShreds_of_holds (h : Holds data_shreds code_shreds rows batch) :
    batch.selectedShreds.map Prod.snd =
      (batch.selectedShreds.map Prod.fst).map (shredAt data_shreds code_shreds) := by
  rw [List.map_map]
  refine List.map_congr_left ?_
  rintro ⟨row, bytes⟩ hmem
  rw [Function.comp_apply, shredAt, ← h.num_data]
  rcases of_mem_selectedShreds hmem with ⟨hrow, hb⟩ | ⟨hrow, -, hb⟩
  · rw [if_pos hrow, List.getD_eq_getElem?_getD, data_of_holds h hb]
    rfl
  · rw [if_neg (Nat.not_lt.mpr hrow), List.getD_eq_getElem?_getD, code_of_holds h hb]
    rfl

theorem mem_rows_of_selected (h : Holds data_shreds code_shreds rows batch) {row : ℕ}
    (hrow : row ∈ batch.selectedShreds.map Prod.fst) : row ∈ rows := by
  obtain ⟨⟨_, bytes⟩, hmem, rfl⟩ := List.mem_map.mp hrow
  rcases of_mem_selectedShreds hmem with ⟨hlt, hb⟩ | ⟨hle, hlt, hb⟩
  · rw [h.data _ (h.num_data ▸ hlt)] at hb
    by_contra hnot
    simp [hnot] at hb
  · rw [h.num_data, h.num_code] at hlt
    rw [h.num_data] at hle hb
    rw [h.code _ (by omega), Nat.add_sub_cancel' hle] at hb
    by_contra hnot
    simp [hnot] at hb

/-- With as many rows as data shreds, every row is selected. -/
theorem selectedRows_eq (h : Holds data_shreds code_shreds rows batch)
    (hrows : ∀ row ∈ rows, row < data_shreds.length + code_shreds.length)
    (hcard : rows.card = data_shreds.length) {row : ℕ} :
    row ∈ batch.selectedShreds.map Prod.fst ↔ row ∈ rows := by
  refine ⟨mem_rows_of_selected h, ?_⟩
  intro hrow
  have hsub : (batch.selectedShreds.map Prod.fst).toFinset ⊆ rows := fun r hr =>
    mem_rows_of_selected h (List.mem_toFinset.mp hr)
  have heq := Finset.eq_of_subset_of_card_le hsub (by
    rw [List.toFinset_card_of_nodup batch.nodup_selectedRows, List.length_map,
      length_selectedShreds batch (by rw [receivedCount_of_holds h hrows, h.num_data, hcard]),
      h.num_data, hcard])
  rw [← List.mem_toFinset, heq]
  exact hrow

theorem countPresent_data_ne (h : Holds data_shreds code_shreds rows batch) {missing : ℕ}
    (hmissing : missing < data_shreds.length) (hlost : missing ∉ rows) :
    countPresent batch.data_shreds ≠ batch.num_data := by
  rw [countPresent_data_of_holds h, h.num_data]
  intro hall
  have hsub : rows.filter (· < data_shreds.length) ⊆ Finset.range data_shreds.length :=
    fun r hr => Finset.mem_range.mpr (Finset.mem_filter.mp hr).2
  have heq := Finset.eq_of_subset_of_card_le hsub (by rw [Finset.card_range, hall])
  have hmem := Finset.mem_range.mpr hmissing
  rw [← heq] at hmem
  exact hlost (Finset.mem_filter.mp hmem).1

/-- The first shred selected is the one with the least row. -/
theorem head_selectedRows {first : ℕ} (h0 : 0 < (batch.selectedShreds.map Prod.fst).length)
    (hfirst : first ∈ batch.selectedShreds.map Prod.fst)
    (hleast : ∀ row ∈ batch.selectedShreds.map Prod.fst, first ≤ row) :
    (batch.selectedShreds.map Prod.fst)[0] = first := by
  refine le_antisymm ?_ (hleast _ (List.getElem_mem _))
  obtain ⟨k, hk, hget⟩ := List.getElem_of_mem hfirst
  rcases Nat.eq_zero_or_pos k with rfl | hpos
  · exact hget.le
  · have hlt := List.pairwise_iff_getElem.mp batch.selectedShreds_sorted 0 k (by simpa using h0)
      (by simpa using hk) hpos
    rw [List.getElem_map] at hget ⊢
    exact hget ▸ hlt.le

/-- When exactly `num_data` rows recover given data, whatever the code shreds
are: no shred is shorter than the first, the data shreds have its length, and
every code row is the parity of the data at these columns. -/
theorem tryRecover_eq_data_iff (h : Holds data_shreds code_shreds rows batch)
    (hcode : code_shreds.length ≤ data_shreds.length) (hdata : data_shreds.length ≤ 128)
    (hrows : ∀ row ∈ rows, row < data_shreds.length + code_shreds.length)
    (hcard : rows.card = data_shreds.length) {missing : ℕ} (hmissing : missing < data_shreds.length)
    (hlost : missing ∉ rows) {first : ℕ} (hfirst : first ∈ rows)
    (hleast : ∀ row ∈ rows, first ≤ row) :
    batch.tryRecover = .ok (some data_shreds) ↔
      (∀ row ∈ rows, (shredAt data_shreds code_shreds first).length ≤
        (shredAt data_shreds code_shreds row).length) ∧
      (∀ d ∈ data_shreds, d.length = (shredAt data_shreds code_shreds first).length) ∧
      ∀ i, data_shreds.length + i ∈ rows →
        ∀ col < (shredAt data_shreds code_shreds first).length,
          parityByte data_shreds
            (generateCauchyMatrix data_shreds.length code_shreds.length) i col =
          byteAt code_shreds i col := by
  have hcount : batch.num_data ≤ batch.receivedCount := by
    rw [receivedCount_of_holds h hrows, h.num_data, hcard]
  have hselected : ∀ row, row ∈ batch.selectedShreds.map Prod.fst ↔ row ∈ rows :=
    fun row => selectedRows_eq h hrows hcard
  have hlen : (batch.selectedShreds.map Prod.fst).length = data_shreds.length := by
    rw [List.length_map, length_selectedShreds batch hcount, h.num_data]
  have h0 : 0 < (batch.selectedShreds.map Prod.fst).length := by omega
  have hidx : ∀ row ∈ batch.selectedShreds.map Prod.fst,
      row < data_shreds.length + code_shreds.length :=
    fun row hrow => hrows row ((hselected row).mp hrow)
  have hhead := head_selectedRows h0 ((hselected first).mpr hfirst)
    fun row hrow => hleast row ((hselected row).mp hrow)
  -- the batch decodes: a data row is missing
  rw [tryRecover_eq_decode hcount (countPresent_data_ne h hmissing hlost),
    selectedShreds_of_holds h, h.num_data, h.num_code,
    decode_eq_some_iff_of_det (by rw [List.length_map, hlen]) hlen hidx (by simpa using h0)
      (receivedMatrix_det_ne_zero hcode hdata hlen batch.nodup_selectedRows hidx),
    List.getElem_map, hhead]
  simp only [mulVec_eq_column_iff hlen hidx, List.forall_mem_map, hselected, true_and]
  refine and_congr_right fun _ => and_congr_right fun _ => ?_
  exact ⟨fun hparity i hi col hcol => hparity col hcol i hi,
    fun hparity col hcol i hi => hparity i hi col hcol⟩

/-- With every data row there is nothing to decode. -/
theorem tryRecover_all_of_holds (h : Holds data_shreds code_shreds rows batch)
    (hall : ∀ i < data_shreds.length, i ∈ rows) :
    batch.tryRecover = .ok (some data_shreds) := by
  have hget : ∀ i < data_shreds.length, batch.data_shreds[i]? = some data_shreds[i]? := by
    intro i hi
    rw [h.data i hi, if_pos (hall i hi)]
  have hlen : batch.data_shreds.length = data_shreds.length :=
    batch.length_data_shreds.trans h.num_data
  -- every place holds its data shred
  have hmap : batch.data_shreds = data_shreds.map some := by
    refine List.ext_getElem (by simp [hlen]) ?_
    intro i hi hi'
    have hi'' : i < data_shreds.length := hlen ▸ hi
    have := hget i hi''
    rw [List.getElem?_eq_getElem hi, Option.some.injEq] at this
    rw [this, List.getElem_map, List.getElem?_eq_getElem hi'']
  have hcount : countPresent batch.data_shreds = batch.num_data := by
    rw [hmap, countPresent, List.countP_map, h.num_data]
    exact List.countP_eq_length.mpr fun _ _ => rfl
  rw [tryRecover_all hcount, hmap]
  simp

/-- As many shreds of an encoded set as it has data shreds recover its data;
fewer recover nothing. -/
theorem tryRecover_of_holds {num_code w : ℕ} (hcode : num_code ≤ data_shreds.length)
    (hdata : data_shreds.length ≤ 128) (hw : ∀ d ∈ data_shreds, d.length = w)
    (h : Holds data_shreds (parity data_shreds
      (generateCauchyMatrix data_shreds.length num_code) num_code w) rows batch)
    (hrows : ∀ row ∈ rows, row < data_shreds.length + num_code) :
    batch.tryRecover =
      .ok (if rows.card < data_shreds.length then none else some data_shreds) := by
  have hnum := h.num_code
  rw [length_parity] at hnum
  have hcount : batch.receivedCount = rows.card :=
    receivedCount_of_holds h (by rwa [length_parity])
  -- too few shreds, all data shreds, and otherwise the decoder solves the system
  by_cases hfew : rows.card < data_shreds.length
  · rw [if_pos hfew]
    exact tryRecover_eq_none (by rw [hcount, h.num_data]; exact hfew)
  rw [if_neg hfew]
  by_cases hall : ∀ i < data_shreds.length, i ∈ rows
  · exact tryRecover_all_of_holds h hall
  push Not at hall
  obtain ⟨missing, hmissing, hlost⟩ := hall
  have hcount' : batch.num_data ≤ batch.receivedCount := by rw [hcount, h.num_data]; omega
  rw [tryRecover_eq_decode hcount' (countPresent_data_ne h hmissing hlost),
    selectedShreds_of_holds h, hnum, h.num_data]
  refine decode_shredAt hcode hdata rfl (by omega) hw ?_ batch.nodup_selectedRows ?_
  · rw [List.length_map, length_selectedShreds batch hcount', h.num_data]
  · exact fun row hrow => hrows row (mem_rows_of_selected h hrow)

/-- Recovery depends on the rows only. -/
theorem tryRecover_congr {batch' : FecBatch} (h : Holds data_shreds code_shreds rows batch)
    (h' : Holds data_shreds code_shreds rows batch') : batch.tryRecover = batch'.tryRecover := by
  have hdata : batch.data_shreds = batch'.data_shreds := by
    refine List.ext_getElem? fun i => ?_
    by_cases hi : i < data_shreds.length
    · rw [h.data i hi, h'.data i hi]
    · rw [List.getElem?_eq_none (by rw [batch.length_data_shreds, h.num_data]; omega),
        List.getElem?_eq_none (by rw [batch'.length_data_shreds, h'.num_data]; omega)]
  have hcode : batch.code_shreds = batch'.code_shreds := by
    refine List.ext_getElem? fun i => ?_
    by_cases hi : i < code_shreds.length
    · rw [h.code i hi, h'.code i hi]
    · rw [List.getElem?_eq_none (by rw [batch.length_code_shreds, h.num_code]; omega),
        List.getElem?_eq_none (by rw [batch'.length_code_shreds, h'.num_code]; omega)]
  have hnum := h.num_data.trans h'.num_data.symm
  have hnum' := h.num_code.trans h'.num_code.symm
  simp only [tryRecover, selectedShreds, hdata, hcode, hnum, hnum']

/-- Rows of one length recover something, encoded or not, once there are as many
as data shreds. -/
theorem exists_tryRecover_of_holds (h : Holds data_shreds code_shreds rows batch)
    (hcode : code_shreds.length ≤ data_shreds.length) (hdata : data_shreds.length ≤ 128)
    (hrows : ∀ row ∈ rows, row < data_shreds.length + code_shreds.length) {w : ℕ}
    (hw : ∀ row ∈ rows, (shredAt data_shreds code_shreds row).length = w)
    (hmany : data_shreds.length ≤ rows.card) :
    ∃ recovered, batch.tryRecover = .ok (some recovered) := by
  by_cases hall : ∀ i < data_shreds.length, i ∈ rows
  · exact ⟨_, tryRecover_all_of_holds h hall⟩
  push Not at hall
  obtain ⟨missing, hmissing, hlost⟩ := hall
  have hcount : batch.num_data ≤ batch.receivedCount := by
    rw [receivedCount_of_holds h hrows, h.num_data]
    exact hmany
  have hlen : (batch.selectedShreds.map Prod.fst).length = data_shreds.length := by
    rw [List.length_map, length_selectedShreds batch hcount, h.num_data]
  have hidx : ∀ row ∈ batch.selectedShreds.map Prod.fst,
      row < data_shreds.length + code_shreds.length :=
    fun row hrow => hrows row (mem_rows_of_selected h hrow)
  have hreceived : ∀ shred ∈ batch.selectedShreds.map Prod.snd, shred.length = w := by
    intro shred hshred
    rw [selectedShreds_of_holds h] at hshred
    obtain ⟨row, hrow, rfl⟩ := List.mem_map.mp hshred
    exact hw row (mem_rows_of_selected h hrow)
  have h0 : 0 < (batch.selectedShreds.map Prod.snd).length := by
    rw [List.length_map, length_selectedShreds batch hcount, h.num_data]
    omega
  have hreceived_len : (batch.selectedShreds.map Prod.snd).length = data_shreds.length := by
    rw [List.length_map, length_selectedShreds batch hcount, h.num_data]
  rw [tryRecover_eq_decode hcount (countPresent_data_ne h hmissing hlost), h.num_data,
    h.num_code]
  -- the rows are different, so their system can be solved
  obtain ⟨inverted, -, hdecode⟩ := decode_invertible hreceived_len hlen hidx h0
    (receivedMatrix_det_ne_zero hcode hdata hlen batch.nodup_selectedRows hidx)
  obtain ⟨R, hR, -⟩ := multiplyReceived_ok inverted hreceived_len
    (fun shred hshred => (hreceived shred hshred).ge)
  have hfirst := hreceived _ (List.getElem_mem h0)
  rw [hdecode, hfirst, hR]
  exact ⟨R, rfl⟩

/-! ### Shreds that a batch has no place for -/

/-- The shred names a place that the batch does not have. -/
def Outside (batch : FecBatch) : Shred → Prop
  | .merkleData common_header _ _ _ _ =>
    common_header.fec_set_index.toNat + batch.num_data ≤ common_header.index.toNat
  | .merkleCode _ coding_header _ _ _ => batch.num_code ≤ coding_header.position.toNat

theorem insertFirst_outside {count : ℕ} {shreds : List (Option Bytes)} {i : ℕ}
    (h : count ≤ i) (data : Bytes) : insertFirst count shreds i data = (shreds, false) :=
  if_neg fun hin => absurd hin.1 (Nat.not_lt.mpr h)

theorem holds_addShred_outside (build : Build) (h : Holds data_shreds code_shreds rows batch)
    {shred : Shred} (hout : batch.Outside shred) :
    ∃ batch', batch.addShred build shred = .ok batch' ∧
      Holds data_shreds code_shreds rows batch' ∧ batch'.slot = batch.slot := by
  cases shred with
  | merkleData common_header data_header merkle_root merkle_proof data =>
    obtain ⟨hsub, hnat⟩ := subU32_ok build
      (show common_header.fec_set_index.toNat ≤ common_header.index.toNat from
        le_trans (Nat.le_add_right _ _) hout)
    -- the index is past the end, so the shred is not kept
    have hle : batch.num_data ≤ (common_header.index - common_header.fec_set_index).toNat := by
      rw [hnat]
      exact Nat.le_sub_of_add_le' hout
    simp only [addShred, hsub, ok_bind, addDataShred, insertFirst_outside hle]
    split_ifs
    · exact ⟨_, rfl, ⟨h.num_data, h.num_code, h.data, h.code⟩, rfl⟩
    · exact ⟨_, rfl, ⟨h.num_data, h.num_code, h.data, h.code⟩, rfl⟩
  | merkleCode common_header coding_header merkle_root merkle_proof code =>
    have hle : batch.num_code ≤ coding_header.position.toUInt32.toNat := by
      rw [UInt16.toNat_toUInt32]
      exact hout
    simp only [addShred, addCodeShred, insertFirst_outside hle]
    exact ⟨_, rfl, ⟨h.num_data, h.num_code, h.data, h.code⟩, rfl⟩

/-- The parent that a batch has after a shred: the first data shred names it,
and every later one as long as it is slot 0. -/
def parentAfter (parent_slot : UInt64) : Shred → UInt64
  | .merkleData common_header data_header _ _ _ =>
    if parent_slot = 0 then
      saturatingSub common_header.slot data_header.parent_offset.toUInt64
    else parent_slot
  | .merkleCode _ _ _ _ _ => parent_slot

theorem parent_slot_addShred {build : Build} {batch' : FecBatch} {shred : Shred}
    (h : batch.addShred build shred = .ok batch') :
    batch'.parent_slot = parentAfter batch.parent_slot shred := by
  cases shred with
  | merkleData common_header data_header merkle_root merkle_proof data =>
    obtain ⟨data_index, -, h⟩ := bind_eq_ok.mp h
    dsimp only at h
    by_cases hparent : (batch.addDataShred data_index data).1.parent_slot = 0
    · rw [if_pos hparent] at h
      cases h
      exact (if_pos hparent).symm
    · rw [if_neg hparent] at h
      cases h
      exact (if_neg hparent).symm
  | merkleCode common_header coding_header merkle_root merkle_proof code =>
    cases h
    rfl

/-! ### The position of a data shred -/

/-- Position `p` is empty, and the one that the header names. -/
def OwnPosition (batch : FecBatch) (common_header : ShredCommonHeader) (p : ℕ) : Prop :=
  common_header.index.toNat = common_header.fec_set_index.toNat + p ∧ p < batch.num_data ∧
    batch.data_shreds[p]? = some none

instance (batch : FecBatch) (common_header : ShredCommonHeader) (p : ℕ) :
    Decidable (batch.OwnPosition common_header p) :=
  inferInstanceAs (Decidable (_ ∧ _ ∧ _))

/-- The data index is the difference of the two indices, and the payload is
stored at its own position and nowhere else. -/
structure LandsOnlyAtOwn (build : Build) (batch : FecBatch) (common_header : ShredCommonHeader)
    (data_header : DataShredHeader) (merkle_root : Vector UInt8 32)
    (merkle_proof : List (Vector UInt8 20)) (data : Bytes) : Prop where
  index : ∃ data_index, subU32 build common_header.index common_header.fec_set_index =
    .ok data_index ∧
      common_header.fec_set_index.toNat + data_index.toNat = common_header.index.toNat
  stored : ∃ batch', batch.addShred build
      (.merkleData common_header data_header merkle_root merkle_proof data) = .ok batch' ∧
    ∀ p, batch'.data_shreds[p]? =
      if batch.OwnPosition common_header p then some (some data) else batch.data_shreds[p]?

/-- What is stored once the index is computed. -/
theorem getElem?_addDataShred (batch : FecBatch) {common_header : ShredCommonHeader}
    {data_index : UInt32} (data : Bytes)
    (hindex : common_header.fec_set_index.toNat + data_index.toNat = common_header.index.toNat)
    (p : ℕ) :
    (batch.addDataShred data_index data).1.data_shreds[p]? =
      if batch.OwnPosition common_header p then some (some data) else batch.data_shreds[p]? := by
  have hlen := batch.length_data_shreds
  have hiff : (p = data_index.toNat ∧ batch.data_shreds[p]? = some none) ↔
      batch.OwnPosition common_header p := by
    constructor
    · rintro ⟨rfl, hnone⟩
      have hlt := (List.getElem?_eq_some_iff.mp hnone).choose
      exact ⟨hindex.symm, hlen ▸ hlt, hnone⟩
    · rintro ⟨hown, -, hnone⟩
      exact ⟨by omega, hnone⟩
  rw [addDataShred, getElem?_insertFirst hlen]
  simp only [hiff]

/-- The data shreds of the batch are those after `add_data_shred`. -/
theorem data_shreds_addShred {build : Build} {common_header : ShredCommonHeader}
    {data_index : UInt32}
    (hsub : subU32 build common_header.index common_header.fec_set_index = .ok data_index)
    (batch : FecBatch) (data_header : DataShredHeader) (merkle_root : Vector UInt8 32)
    (merkle_proof : List (Vector UInt8 20)) (data : Bytes) :
    ∃ batch', batch.addShred build
        (.merkleData common_header data_header merkle_root merkle_proof data) = .ok batch' ∧
      batch'.data_shreds = (batch.addDataShred data_index data).1.data_shreds := by
  simp only [addShred, hsub, ok_bind]
  split_ifs
  · exact ⟨_, rfl, rfl⟩
  · exact ⟨_, rfl, rfl⟩

/-- **When a data shred lands only at its own position**: its index is not
below the index of its erasure set. -/
theorem landsOnlyAtOwn_iff (build : Build) (batch : FecBatch) (common_header : ShredCommonHeader)
    (data_header : DataShredHeader) (merkle_root : Vector UInt8 32)
    (merkle_proof : List (Vector UInt8 20)) (data : Bytes) :
    batch.LandsOnlyAtOwn build common_header data_header merkle_root merkle_proof data ↔
      common_header.fec_set_index ≤ common_header.index := by
  rw [UInt32.le_iff_toNat_le]
  constructor
  · intro h
    obtain ⟨data_index, -, hindex⟩ := h.index
    omega
  · intro hle
    obtain ⟨hsub, hnat⟩ := subU32_ok build hle
    have hindex : common_header.fec_set_index.toNat +
        (common_header.index - common_header.fec_set_index).toNat = common_header.index.toNat := by
      omega
    obtain ⟨batch', hadd, hshreds⟩ := data_shreds_addShred hsub batch data_header merkle_root
      merkle_proof data
    refine ⟨⟨_, hsub, hindex⟩, batch', hadd, fun p => ?_⟩
    rw [hshreds, getElem?_addDataShred batch data hindex]

/-- A data shred of index 0 in the erasure set of index `u32::MAX`. -/
def wrappedHeader : ShredCommonHeader where
  signature := Vector.replicate 64 0
  shred_variant := 0x90
  slot := 7
  index := 0
  version := 0
  fec_set_index := 0xFFFFFFFF

def wrappedPacket : Bytes :=
  List.replicate 64 0 ++ [0x90, 7, 0, 0, 0, 0, 0, 0, 0, 0, 0, 0, 0, 0, 0, 255, 255, 255, 255,
    1, 0, 0, 89, 0, 42] ++ List.replicate 32 0

/-- In a release build the shred is stored at position 1. -/
theorem landsOnlyAtOwn_wrapped :
    ¬ ∀ (build : Build) (batch : FecBatch) (bytes : Bytes) (common_header : ShredCommonHeader)
        (data_header : DataShredHeader) (merkle_root : Vector UInt8 32)
        (merkle_proof : List (Vector UInt8 20)) (data : Bytes),
      Shred.parseFromBytes bytes =
          some (.merkleData common_header data_header merkle_root merkle_proof data) →
        batch.LandsOnlyAtOwn build common_header data_header merkle_root merkle_proof data := by
  intro h
  have hparse : Shred.parseFromBytes wrappedPacket = some (.merkleData wrappedHeader
      { parent_offset := 1, flags := 0, size := 89 } (Vector.replicate 32 0) [] [42]) := by
    decide +kernel
  obtain ⟨batch', hadd, hstored⟩ :=
    (h .release (new 7 0xFFFFFFFF 32 32) wrappedPacket _ _ _ _ _ hparse).stored
  have hadded : (addShred .release (new 7 0xFFFFFFFF 32 32) (.merkleData wrappedHeader
      { parent_offset := 1, flags := 0, size := 89 } (Vector.replicate 32 0) [] [42])).map
        (fun batch => batch.data_shreds[1]?) = .ok (some (some [42])) := by decide +kernel
  rw [hadd] at hadded
  have hstored₁ : batch'.data_shreds[1]? = some (some [42]) := Except.ok.inj hadded
  rw [hstored 1] at hstored₁
  exact absurd hstored₁ (by decide +kernel)

end FecBatch

end Sg32
