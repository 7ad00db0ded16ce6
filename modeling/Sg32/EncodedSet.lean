/-
One erasure set in the pipeline.

The shreds of one set arrive in some order, and again and again.  A batch is
created by its first shred: a code shred names the dimensions of the set, after
a data shred the batch has the usual 32 and 32, whatever the set has.

* `place` — where a row of the set goes in a batch;
* `collector` — the pipeline, as far as one set is concerned;
* `run_follows` — the pipeline does what the collector does;
* `run_lastSlot` — except for slot `u64::MAX`, where a block may not fit.
-/
import Sg32.Foundation.Collector
import Sg32.ProcessShred
import Sg32.RingBufferWindow

namespace Sg32

open Rust FecBatch SlotRingBuffer

/-- A code shred names the dimensions, a data shred the parent. -/
def NamesSet (num_data num_code : ℕ) (parent_offset : UInt16) : Shred → Prop
  | .merkleData _ data_header _ _ _ => data_header.parent_offset = parent_offset
  | .merkleCode _ coding_header _ _ _ =>
    coding_header.num_data_shreds.toNat = num_data ∧
      coding_header.num_coding_shreds.toNat = num_code

/-- An erasure set of a slot: its payloads, encoded, and the shreds of its
rows, data first.  The code shreds name its dimensions, the data shreds one
parent. -/
structure EncodedSet where
  id : ErasureSetId
  num_data : ℕ
  num_code : ℕ
  parent_offset : UInt16
  data_shreds : List Bytes
  code_shreds : List Bytes
  shred : ℕ → Shred
  one_le_code : 1 ≤ num_code
  code_le_data : num_code ≤ num_data
  data_le : num_data ≤ 128
  length_data : data_shreds.length = num_data
  length_eq : ∃ w, ∀ d ∈ data_shreds, d.length = w
  encoded : encode data_shreds (generateCauchyMatrix num_data num_code) num_code = .ok code_shreds
  isRow : ∀ row < num_data + num_code, IsRow data_shreds code_shreds row (shred row)
  hasId : ∀ row < num_data + num_code, (shred row).erasureSetId = id
  names : ∀ row < num_data + num_code, NamesSet num_data num_code parent_offset (shred row)

namespace EncodedSet

variable (set : EncodedSet)

/-- The slot before the block, by its data shreds. -/
def parentSlot : UInt64 := saturatingSub set.id.slot set.parent_offset.toUInt64

/-! ### Batches of the set

`named` says that a code shred created the batch. -/

def batchData (named : Bool) : List Bytes :=
  if named then set.data_shreds
  else (List.range NUM_DATA_SHREDS).map fun i => set.data_shreds.getD i []

def batchCode (named : Bool) : List Bytes :=
  if named then set.code_shreds
  else (List.range NUM_CODE_SHREDS).map fun i => set.code_shreds.getD i []

/-- The number of data shreds of the batch, and so of the rows that it needs. -/
def needed (named : Bool) : ℕ := if named then set.num_data else NUM_DATA_SHREDS

/-- The number of code shreds of the batch. -/
def codeRoom (named : Bool) : ℕ := if named then set.num_code else NUM_CODE_SHREDS

/-- The row of the batch that a row of the set takes; `none` when the batch has
no place for it. -/
def place (named : Bool) (row : ℕ) : Option ℕ :=
  if row < set.num_data then if row < set.needed named then some row else none
  else if row - set.num_data < set.codeRoom named then
    some (set.needed named + (row - set.num_data))
  else none

/-- What the pipeline knows of an open batch. -/
structure Collected where
  named : Bool
  rows : Finset ℕ
  parent_slot : UInt64

/-- A batch with these rows and nothing else. -/
def holding (data_shreds code_shreds : List Bytes) (rows : Finset ℕ) : FecBatch where
  slot := 0
  fec_set_index := 0
  parent_slot := 0
  num_data := data_shreds.length
  num_code := code_shreds.length
  data_shreds := (List.range data_shreds.length).map fun i =>
    if i ∈ rows then data_shreds[i]? else none
  code_shreds := (List.range code_shreds.length).map fun i =>
    if data_shreds.length + i ∈ rows then code_shreds[i]? else none
  length_data_shreds := by simp
  length_code_shreds := by simp

/-- What a batch of the set with these rows recovers. -/
def recovered (named : Bool) (rows : Finset ℕ) : Option (List Bytes) :=
  (holding (set.batchData named) (set.batchCode named) rows).tryRecover.toOption.join

/-- The block in recovered payloads, if there is one. -/
def blockIn (payloads : List Bytes) : Option DeshredResult :=
  (deshredIntoTxs payloads).toOption.join

/-- The block as it is published. -/
def publishedBlock (libs : Libs) (parent_slot : UInt64) (result : DeshredResult) : SlotData :=
  slotData libs { FecBatch.new set.id.slot set.id.fec_set_index 0 0 with
    parent_slot := parent_slot } result

/-- The pipeline for the rows of this set: batches of rows, of which each one
that is recovered may publish a block. -/
def collector (libs : Libs) : Collector ℕ Collected SlotData where
  start row := { named := decide (set.num_data ≤ row), rows := ∅, parent_slot := 0 }
  add batch row := { batch with
    rows := (set.place batch.named row).elim batch.rows fun r => insert r batch.rows
    parent_slot :=
      if row < set.num_data ∧ batch.parent_slot = 0 then set.parentSlot else batch.parent_slot }
  finish batch := (set.recovered batch.named batch.rows).map fun payloads =>
    (blockIn payloads).map (set.publishedBlock libs batch.parent_slot)

variable {set} {named : Bool} {row r : ℕ} {rows : Finset ℕ} {batch : FecBatch}
  {batches : AList fun _ : ErasureSetId => FecBatch}

theorem code_eq : ∃ w, (∀ d ∈ set.data_shreds, d.length = w) ∧
    set.code_shreds = parity set.data_shreds
      (generateCauchyMatrix set.data_shreds.length set.num_code) set.num_code w := by
  obtain ⟨w, hw⟩ := set.length_eq
  refine ⟨w, hw, ?_⟩
  rw [set.length_data]
  exact eq_parity_of_encode set.length_data (le_trans set.one_le_code set.code_le_data) hw
    set.encoded

theorem length_code : set.code_shreds.length = set.num_code := by
  obtain ⟨w, -, hcode⟩ := set.code_eq
  rw [hcode, length_parity]

/-- The data shreds come first. -/
theorem shred_cases (hrow : row < set.num_data + set.num_code) :
    (row < set.num_data ∧ ∃ common_header data_header merkle_root merkle_proof data,
      set.shred row = .merkleData common_header data_header merkle_root merkle_proof data ∧
        common_header.index.toNat = common_header.fec_set_index.toNat + row ∧
        common_header.slot = set.id.slot ∧ data_header.parent_offset = set.parent_offset ∧
        set.data_shreds[row]? = some data) ∨
    (set.num_data ≤ row ∧ ∃ common_header coding_header merkle_root merkle_proof code,
      set.shred row = .merkleCode common_header coding_header merkle_root merkle_proof code ∧
        coding_header.num_data_shreds.toNat = set.num_data ∧
        coding_header.num_coding_shreds.toNat = set.num_code ∧
        coding_header.position.toNat = row - set.num_data ∧
        set.code_shreds[row - set.num_data]? = some code) := by
  have hisRow := set.isRow row hrow
  have hid := set.hasId row hrow
  have hnames := set.names row hrow
  -- the packet type and the row agree, because `isRow` holds of the row
  cases hshred : set.shred row with
  | merkleData common_header data_header merkle_root merkle_proof data =>
    rw [hshred] at hisRow hid hnames
    obtain ⟨hindex, hdata⟩ := hisRow
    have hlt := (List.getElem?_eq_some_iff.mp hdata).choose
    rw [set.length_data] at hlt
    exact .inl ⟨hlt, _, _, _, _, _, rfl, hindex, congrArg ErasureSetId.slot hid, hnames, hdata⟩
  | merkleCode common_header coding_header merkle_root merkle_proof code =>
    rw [hshred] at hisRow hnames
    obtain ⟨hplace, hcode⟩ := hisRow
    rw [set.length_data] at hplace
    have hposition : coding_header.position.toNat = row - set.num_data := by omega
    rw [hposition] at hcode
    exact .inr ⟨by omega, _, _, _, _, _, rfl, hnames.1, hnames.2, hposition, hcode⟩

/-! ### Rows and places -/

@[simp] theorem length_batchData (named : Bool) :
    (set.batchData named).length = set.needed named := by
  cases named with
  | true => exact set.length_data
  | false => simp [batchData, needed]

@[simp] theorem length_batchCode (named : Bool) :
    (set.batchCode named).length = set.codeRoom named := by
  cases named with
  | true => exact set.length_code
  | false => simp [batchCode, codeRoom]

theorem batchData_getElem? {i : ℕ} (hi : i < set.needed named) (hdata : i < set.num_data) :
    (set.batchData named)[i]? = set.data_shreds[i]? := by
  have hlen : i < set.data_shreds.length := by rwa [set.length_data]
  cases named with
  | true => rfl
  | false =>
    have hlt : i < NUM_DATA_SHREDS := hi
    simp [batchData, hlt, hlen]

theorem batchCode_getElem? {i : ℕ} (hi : i < set.codeRoom named) (hcode : i < set.num_code) :
    (set.batchCode named)[i]? = set.code_shreds[i]? := by
  have hlen : i < set.code_shreds.length := by rwa [set.length_code]
  cases named with
  | true => rfl
  | false =>
    have hlt : i < NUM_CODE_SHREDS := hi
    simp [batchCode, hlt, hlen]

theorem place_eq_some : set.place named row = some r ↔
    (row < set.num_data ∧ row < set.needed named ∧ r = row) ∨
      (set.num_data ≤ row ∧ row - set.num_data < set.codeRoom named ∧
        r = set.needed named + (row - set.num_data)) := by
  unfold place
  split_ifs with hdata hplace hplace
  · simp [hdata, hplace, eq_comm]
  · simp [hdata, hplace]
  · simp [hdata, hplace, Nat.not_lt.mp hdata, eq_comm]
  · simp [hdata, hplace]

theorem place_eq_none : set.place named row = none ↔
    (row < set.num_data ∧ set.needed named ≤ row) ∨
      (set.num_data ≤ row ∧ set.codeRoom named ≤ row - set.num_data) := by
  unfold place
  split_ifs with hdata hplace hplace
  · simp [hdata, hplace]
  · simp [hdata, Nat.not_lt.mp hplace]
  · simp [hdata, hplace]
  · simp [Nat.not_lt.mp hdata, Nat.not_lt.mp hplace]

/-- Different rows have different places. -/
theorem place_inj {row' : ℕ} (h : set.place named row = some r)
    (h' : set.place named row' = some r) : row = row' := by
  rcases place_eq_some.mp h with ⟨hrow, hlt, rfl⟩ | ⟨hrow, hlt, rfl⟩ <;>
    rcases place_eq_some.mp h' with ⟨hrow', hlt', heq⟩ | ⟨hrow', hlt', heq⟩ <;> omega

/-- A shred that has a place in the batch is the row of that place. -/
theorem isRow_of_place (hrow : row < set.num_data + set.num_code)
    (hplace : set.place named row = some r) :
    IsRow (set.batchData named) (set.batchCode named) r (set.shred row) := by
  rcases set.shred_cases hrow with ⟨hlt, _, _, _, _, data, hshred, hindex, -, -, hdata⟩ |
    ⟨hle, _, _, _, _, code, hshred, -, -, hposition, hcode⟩
  · rcases place_eq_some.mp hplace with ⟨-, hneeded, rfl⟩ | ⟨hle, -⟩
    · rw [hshred]
      exact ⟨hindex, by rw [batchData_getElem? hneeded hlt, hdata]⟩
    · omega
  · rcases place_eq_some.mp hplace with ⟨hlt, -⟩ | ⟨-, hroom, rfl⟩
    · omega
    · rw [hshred]
      have hlt : row - set.num_data < set.num_code := by omega
      refine ⟨?_, ?_⟩
      · rw [length_batchData, hposition]
      · rw [hposition, batchCode_getElem? hroom hlt, hcode]

theorem outside_of_place (hrow : row < set.num_data + set.num_code)
    (hplace : set.place named row = none) (hdata : batch.num_data = set.needed named)
    (hcode : batch.num_code = set.codeRoom named) : batch.Outside (set.shred row) := by
  rcases set.shred_cases hrow with ⟨hlt, _, _, _, _, data, hshred, hindex, -⟩ |
    ⟨hle, _, _, _, _, code, hshred, -, -, hposition, -⟩
  · rcases place_eq_none.mp hplace with ⟨-, hneeded⟩ | ⟨hle, -⟩
    · rw [hshred]
      show _ + batch.num_data ≤ _
      omega
    · omega
  · rcases place_eq_none.mp hplace with ⟨hlt, -⟩ | ⟨-, hroom⟩
    · omega
    · rw [hshred]
      show batch.num_code ≤ _
      omega

/-! ### What a batch recovers -/

/-- All rows of the batch are places of rows of the set. -/
def Filled (set : EncodedSet) (named : Bool) (rows : Finset ℕ) : Prop :=
  ∀ r ∈ rows, ∃ row < set.num_data + set.num_code, set.place named row = some r

theorem codeRoom_le_needed (named : Bool) : set.codeRoom named ≤ set.needed named := by
  cases named with
  | true => exact set.code_le_data
  | false => exact le_rfl

theorem needed_le (named : Bool) : set.needed named ≤ 128 := by
  cases named with
  | true => exact set.data_le
  | false => show (32 : ℕ) ≤ 128; omega

theorem one_le_needed (named : Bool) : 1 ≤ set.needed named := by
  cases named with
  | true => exact le_trans set.one_le_code set.code_le_data
  | false => show (1 : ℕ) ≤ 32; omega

theorem Filled.lt (h : set.Filled named rows) (hr : r ∈ rows) :
    r < set.needed named + set.codeRoom named := by
  obtain ⟨row, hrow, hplace⟩ := h r hr
  rcases place_eq_some.mp hplace with ⟨-, hlt, rfl⟩ | ⟨-, hlt, rfl⟩ <;> omega

/-- All payloads have one length, so those in a batch do. -/
theorem exists_length_shredAt (set : EncodedSet) : ∃ w, ∀ named rows, set.Filled named rows →
    ∀ r ∈ rows, (shredAt (set.batchData named) (set.batchCode named) r).length = w := by
  obtain ⟨w, hw, hparity⟩ := set.code_eq
  have hcodes : ∀ c ∈ set.code_shreds, c.length = w := by
    rw [hparity]
    exact fun c hc => length_of_mem_parity hc
  refine ⟨w, ?_⟩
  intro named rows h r hr
  obtain ⟨row, hrow, hplace⟩ := h r hr
  rw [shredAt, length_batchData]
  -- a place holds a shred of the set, whatever dimensions the batch has
  rcases place_eq_some.mp hplace with ⟨hdata, hneeded, rfl⟩ | ⟨hle, hroom, rfl⟩
  · have hlt : r < set.data_shreds.length := by rwa [set.length_data]
    rw [if_pos hneeded, List.getD_eq_getElem?_getD, batchData_getElem? hneeded hdata,
      List.getElem?_eq_getElem hlt]
    exact hw _ (List.getElem_mem hlt)
  · have hcode : row - set.num_data < set.num_code := by omega
    have hlt : row - set.num_data < set.code_shreds.length := by rwa [set.length_code]
    rw [if_neg (by omega), Nat.add_sub_cancel_left, List.getD_eq_getElem?_getD,
      batchCode_getElem? hroom hcode, List.getElem?_eq_getElem hlt]
    exact hcodes _ (List.getElem_mem hlt)

theorem holds_holding (data_shreds code_shreds : List Bytes) (rows : Finset ℕ) :
    Holds data_shreds code_shreds rows (holding data_shreds code_shreds rows) where
  num_data := rfl
  num_code := rfl
  data i hi := by simp [holding, hi]
  code i hi := by simp [holding, hi]

theorem tryRecover_few
    (h : Holds (set.batchData named) (set.batchCode named) rows batch)
    (hfilled : set.Filled named rows) (hfew : rows.card < set.needed named) :
    batch.tryRecover = .ok none := by
  refine tryRecover_eq_none ?_
  rw [receivedCount_of_holds h fun r hr => by simpa using hfilled.lt hr, h.num_data,
    length_batchData]
  exact hfew

theorem tryRecover_many
    (h : Holds (set.batchData named) (set.batchCode named) rows batch)
    (hfilled : set.Filled named rows) (hmany : set.needed named ≤ rows.card) :
    ∃ payloads, batch.tryRecover = .ok (some payloads) := by
  obtain ⟨w, hw⟩ := set.exists_length_shredAt
  refine exists_tryRecover_of_holds h ?_ ?_ ?_ (hw named rows hfilled) ?_
  · rw [length_batchData, length_batchCode]
    exact set.codeRoom_le_needed named
  · rw [length_batchData]
    exact set.needed_le named
  · intro r hr
    simpa using hfilled.lt hr
  · rwa [length_batchData]

/-- Every batch with these rows recovers the same. -/
theorem tryRecover_eq (h : Holds (set.batchData named) (set.batchCode named) rows batch)
    (hfilled : set.Filled named rows) :
    batch.tryRecover = .ok (set.recovered named rows) := by
  have hreturns : ∃ payloads, batch.tryRecover = .ok payloads := by
    rcases Nat.lt_or_ge rows.card (set.needed named) with hfew | hmany
    · exact ⟨none, tryRecover_few h hfilled hfew⟩
    · obtain ⟨payloads, hsome⟩ := tryRecover_many h hfilled hmany
      exact ⟨some payloads, hsome⟩
  obtain ⟨payloads, hpayloads⟩ := hreturns
  rw [recovered, ← tryRecover_congr h (holds_holding _ _ rows), hpayloads]
  cases payloads <;> rfl

theorem recovered_eq_none_iff (hfilled : set.Filled named rows) :
    set.recovered named rows = none ↔ rows.card < set.needed named := by
  have h := holds_holding (set.batchData named) (set.batchCode named) rows
  have heq := tryRecover_eq h hfilled
  constructor
  · intro hnone
    rw [hnone] at heq
    by_contra hmany
    obtain ⟨payloads, hsome⟩ := tryRecover_many h hfilled (Nat.not_lt.mp hmany)
    cases hsome.symm.trans heq
  · intro hfew
    exact Except.ok.inj (heq.symm.trans (tryRecover_few h hfilled hfew))

/-- A batch that a code shred created recovers the data. -/
theorem recovered_named (hfilled : set.Filled true rows) :
    set.recovered true rows = if rows.card < set.num_data then none else some set.data_shreds := by
  have h := holds_holding set.data_shreds set.code_shreds rows
  have heq : (holding set.data_shreds set.code_shreds rows).tryRecover =
      .ok (set.recovered true rows) := tryRecover_eq h hfilled
  obtain ⟨w, hw, hcode⟩ := set.code_eq
  rw [hcode] at h
  have hrecover := tryRecover_of_holds (by rw [set.length_data]; exact set.code_le_data)
    (by rw [set.length_data]; exact set.data_le) hw h (fun r hr => by
      rw [set.length_data]
      exact hfilled.lt hr)
  rw [← hcode, set.length_data] at hrecover
  exact Except.ok.inj (heq.symm.trans hrecover)

/-- A code shred does not depend on how many there are. -/
theorem parity_getElem? {data_shreds : List Bytes} {num_code num_code' w i : ℕ}
    (hi : i < num_code) (hi' : i < num_code') :
    (parity data_shreds (generateCauchyMatrix data_shreds.length num_code) num_code w)[i]? =
      (parity data_shreds (generateCauchyMatrix data_shreds.length num_code') num_code' w)[i]? := by
  have hbyte : ∀ col,
      parityByte data_shreds (generateCauchyMatrix data_shreds.length num_code) i col =
        parityByte data_shreds (generateCauchyMatrix data_shreds.length num_code') i col := by
    intro col
    have hcol : (⟨parityByte data_shreds (generateCauchyMatrix data_shreds.length num_code) i
        col⟩ : GF256) = ⟨parityByte data_shreds
          (generateCauchyMatrix data_shreds.length num_code') i col⟩ :=
      (mk_parityByte hi).trans (mk_parityByte hi').symm
    exact congrArg GF256.byte hcol
  simp only [parity, List.getElem?_map, List.getElem?_range hi, List.getElem?_range hi',
    Option.map_some, funext hbyte]

/-- So does one that a data shred created, when the set has 32 data shreds. -/
theorem recovered_usual (husual : set.num_data = NUM_DATA_SHREDS)
    (hfilled : set.Filled false rows) :
    set.recovered false rows =
      if rows.card < NUM_DATA_SHREDS then none else some set.data_shreds := by
  obtain ⟨w, hw, hcode⟩ := set.code_eq
  have hlen : set.data_shreds.length = NUM_DATA_SHREDS := set.length_data.trans husual
  have hdata : set.batchData false = set.data_shreds := by
    refine List.ext_getElem (by rw [length_batchData, hlen]; rfl) fun i hi hi' => ?_
    have hget : (set.batchData false)[i]? = set.data_shreds[i]? :=
      batchData_getElem? (by simpa using hi) (by rwa [set.length_data] at hi')
    rw [List.getElem?_eq_getElem hi, List.getElem?_eq_getElem hi'] at hget
    exact Option.some.inj hget
  have h := holds_holding (set.batchData false) (set.batchCode false) rows
  have heq := tryRecover_eq h hfilled
  -- the code shreds are those of a set with 32 of them
  have hfull : Holds set.data_shreds (parity set.data_shreds
      (generateCauchyMatrix set.data_shreds.length NUM_CODE_SHREDS) NUM_CODE_SHREDS w) rows
      (holding (set.batchData false) (set.batchCode false) rows) := by
    refine ⟨by rw [h.num_data, hdata], by rw [h.num_code, length_parity, length_batchCode]; rfl,
      fun i hi => by rw [h.data i (by rwa [hdata]), hdata], fun i hi => ?_⟩
    rw [length_parity] at hi
    rw [h.code i (by rw [length_batchCode]; exact hi), hdata]
    by_cases hmem : set.data_shreds.length + i ∈ rows
    · obtain ⟨row, hrow, hplace⟩ := hfilled _ hmem
      rw [hlen] at hplace
      have hneeded : set.needed false = NUM_DATA_SHREDS := rfl
      have hlt : i < set.num_code := by
        rcases place_eq_some.mp hplace with ⟨-, hneed, heq⟩ | ⟨hle, -, heq⟩ <;> omega
      rw [if_pos hmem, if_pos hmem, batchCode_getElem? hi hlt, hcode, parity_getElem? hlt hi]
    · rw [if_neg hmem, if_neg hmem]
  have hrecover := tryRecover_of_holds (by rw [hlen]; decide) (by rw [hlen]; decide) hw hfull
    (fun r hr => by
      rw [hlen]
      exact hfilled.lt hr)
  rw [hlen] at hrecover
  exact Except.ok.inj (heq.symm.trans hrecover)

/-! ### The pipeline does what the collector does -/

/-- The batch of the node is the one of the collector. -/
structure Represents (set : EncodedSet) (collected : Collected) (batch : FecBatch) : Prop where
  holds : Holds (set.batchData collected.named) (set.batchCode collected.named) collected.rows batch
  filled : set.Filled collected.named collected.rows
  slot : batch.slot = set.id.slot
  parent_slot : batch.parent_slot = collected.parent_slot

variable {libs : Libs} {collected : Collected}

theorem parentAfter_shred (hrow : row < set.num_data + set.num_code) (parent_slot : UInt64) :
    parentAfter parent_slot (set.shred row) =
      if row < set.num_data ∧ parent_slot = 0 then set.parentSlot else parent_slot := by
  rcases set.shred_cases hrow with ⟨hlt, _, _, _, _, _, hshred, -, hslot, hparent, -⟩ |
    ⟨hle, _, _, _, _, _, hshred, -⟩
  · rw [hshred, parentAfter, hslot, hparent]
    simp only [hlt, true_and]
    rfl
  · rw [hshred, parentAfter, if_neg fun hdata => absurd hdata.1 (Nat.not_lt.mpr hle)]

theorem represents_new (libs : Libs) (hrow : row < set.num_data + set.num_code) :
    set.Represents ((set.collector libs).start row)
      (FecBatch.new set.id.slot set.id.fec_set_index (batchDims (set.shred row)).1
        (batchDims (set.shred row)).2) where
  holds := by
    have hdims : batchDims (set.shred row) =
        (set.needed (decide (set.num_data ≤ row)), set.codeRoom (decide (set.num_data ≤ row))) := by
      rcases set.shred_cases hrow with ⟨hlt, _, _, _, _, _, hshred, -⟩ |
        ⟨hle, _, _, _, _, _, hshred, hdata, hcode, -⟩
      · rw [hshred, decide_eq_false (Nat.not_le.mpr hlt)]
        rfl
      · rw [hshred, decide_eq_true hle, batchDims, hdata, hcode]
        rfl
    have hnew := holds_new (set.batchData (decide (set.num_data ≤ row)))
      (set.batchCode (decide (set.num_data ≤ row))) set.id.slot set.id.fec_set_index
    rw [length_batchData, length_batchCode] at hnew
    rw [hdims]
    exact hnew
  filled r hr := absurd hr (Finset.notMem_empty r)
  slot := rfl
  parent_slot := rfl

theorem represents_add (libs : Libs) (build : Build) (h : set.Represents collected batch)
    (hrow : row < set.num_data + set.num_code) :
    ∃ batch', batch.addShred build (set.shred row) = .ok batch' ∧
      set.Represents ((set.collector libs).add collected row) batch' := by
  have hparent : ∀ batch', batch.addShred build (set.shred row) = .ok batch' →
      batch'.parent_slot = ((set.collector libs).add collected row).parent_slot := by
    intro batch' hadd
    rw [parent_slot_addShred hadd, parentAfter_shred hrow, h.parent_slot]
    rfl
  -- a row without a place leaves the batch as it is, except for its parent
  cases hplace : set.place collected.named row with
  | none =>
    have hout := outside_of_place hrow hplace (h.holds.num_data.trans (length_batchData _))
      (h.holds.num_code.trans (length_batchCode _))
    obtain ⟨batch', hadd, hholds, hslot⟩ := holds_addShred_outside build h.holds hout
    refine ⟨batch', hadd, ⟨?_, ?_, hslot.trans h.slot, hparent batch' hadd⟩⟩
    · simp only [collector, hplace, Option.elim_none]
      exact hholds
    · simp only [collector, hplace, Option.elim_none]
      exact h.filled
  | some r =>
    obtain ⟨batch', hadd, hholds, hslot⟩ :=
      holds_addShred build h.holds (isRow_of_place hrow hplace)
    refine ⟨batch', hadd, ⟨?_, ?_, hslot.trans h.slot, hparent batch' hadd⟩⟩
    · simp only [collector, hplace, Option.elim_some]
      exact hholds
    · simp only [collector, hplace, Option.elim_some]
      intro r' hr'
      rcases Finset.mem_insert.mp hr' with rfl | hold
      · exact ⟨row, hrow, hplace⟩
      · exact h.filled r' hold

theorem slotData_eq (libs : Libs) (h : set.Represents collected batch) (result : DeshredResult) :
    slotData libs batch result = set.publishedBlock libs collected.parent_slot result := by
  rw [slotData, h.slot, h.parent_slot]
  rfl

/-- The node has the batch of the set that the collector has. -/
structure MirrorsBatch (set : EncodedSet) (opened : Option Collected) (node : Node) : Prop where
  closed : opened = none → node.batches.lookup set.id = none
  opened : ∀ collected, opened = some collected →
    ∃ batch, node.batches.lookup set.id = some batch ∧ set.Represents collected batch

/-- The node has for the set what the collector has. -/
structure Mirrors (set : EncodedSet) (state : Option Collected × Option SlotData) (node : Node) :
    Prop where
  batch : set.MirrorsBatch state.1 node
  inWindow : InWindow set.id.slot.toNat node.ring_buffer
  capacity : node.ring_buffer.capacity = 500
  contents : node.ring_buffer.contents set.id.slot = state.2

variable {opened : Option Collected} {state : Option Collected × Option SlotData} {node : Node}

theorem mirrorsBatch_start (set : EncodedSet) (file_store : FlatFileStore) (disk : Disk)
    (stats : PipelineStats) : set.MirrorsBatch none (Node.start file_store disk stats) where
  closed _ := AList.lookup_empty set.id
  opened _ h := nomatch h

theorem mirrors_start (set : EncodedSet) (file_store : FlatFileStore) (disk : Disk)
    (stats : PipelineStats) : set.Mirrors (none, none) (Node.start file_store disk stats) where
  batch := mirrorsBatch_start set file_store disk stats
  inWindow := inWindow_new (by decide) _
  capacity := rfl
  contents := contents_new 500 set.id.slot

theorem mirrorsBatch_insert {collected : Collected} (hrepresents : set.Represents collected batch)
    (hbatches : node.batches = (AList.insert set.id batch batches)) :
    set.MirrorsBatch (some collected) node where
  closed h := nomatch h
  opened c hc := by
    cases hc
    exact ⟨batch, by rw [hbatches, AList.lookup_insert], hrepresents⟩

theorem mirrorsBatch_erase (hbatches : node.batches = AList.erase set.id batches) :
    set.MirrorsBatch none node where
  closed _ := by rw [hbatches, AList.lookup_erase]
  opened _ h := nomatch h

/-- The batch that a shred of the set goes to. -/
theorem represents_openBatch (libs : Libs) (h : set.MirrorsBatch opened node)
    (hrow : row < set.num_data + set.num_code) :
    set.Represents (opened.getD ((set.collector libs).start row))
      (openBatch node.batches (set.shred row)) := by
  rw [openBatch, set.hasId row hrow]
  cases hopened : opened with
  | none =>
    rw [h.closed hopened]
    exact represents_new libs hrow
  | some collected =>
    obtain ⟨batch, hlookup, hrepresents⟩ := h.opened collected hopened
    rw [hlookup]
    exact hrepresents

theorem finish_eq (collected : Collected) : (set.collector libs).finish collected =
    (set.recovered collected.named collected.rows).map fun payloads =>
      (blockIn payloads).map (set.publishedBlock libs collected.parent_slot) := rfl

/-- **One shred in its batch**: nothing is published, or the batch gives a
block that goes to the ring buffer. -/
theorem step_cases (libs : Libs) (build : Build) (io : FileIo) (h : set.MirrorsBatch opened node)
    (hrow : row < set.num_data + set.num_code) (kept : Option SlotData) :
    (∃ node' opened', processShred libs build io node (set.shred row) = .ok node' ∧
        KeepsStores node node' ∧ set.MirrorsBatch opened' node' ∧
        (set.collector libs).step (opened, kept) row = (opened', kept)) ∨
      ∃ batch payloads result,
        (openBatch node.batches (set.shred row)).addShred build (set.shred row) = .ok batch ∧
        batch.tryRecover = .ok (some payloads) ∧ deshredIntoTxs payloads = .ok (some result) ∧
        batch.slot = set.id.slot ∧
        (set.collector libs).step (opened, kept) row =
          (none, some (slotData libs batch result)) := by
  obtain ⟨batch, hadd, hbatch⟩ :=
    represents_add libs build (represents_openBatch libs h hrow) hrow
  have hrecover := tryRecover_eq hbatch.holds hbatch.filled
  set collected := (set.collector libs).add (opened.getD ((set.collector libs).start row)) row
    with hcollected
  cases hpayloads : set.recovered collected.named collected.rows with
  | none =>
    -- the batch stays open
    have hstep : (set.collector libs).step (opened, kept) row = (some collected, kept) :=
      Collector.step_of_open (by rw [← hcollected, finish_eq, hpayloads]; rfl)
    rw [hpayloads] at hrecover
    obtain ⟨node', hprocess, hkeep, hbatches⟩ := processShred_kept libs io hadd hrecover
    rw [set.hasId row hrow] at hbatches
    exact .inl ⟨node', _, hprocess, hkeep, mirrorsBatch_insert hbatch hbatches, hstep⟩
  | some payloads =>
    rw [hpayloads] at hrecover
    obtain ⟨result, hresult⟩ := deshredIntoTxs_returns payloads
    have hstep : (set.collector libs).step (opened, kept) row =
        (none, (result.map (set.publishedBlock libs collected.parent_slot)).or kept) :=
      Collector.step_of_finished (by
        rw [← hcollected, finish_eq, hpayloads, Option.map_some, blockIn, hresult]
        rfl)
    cases result with
    | none =>
      -- the payloads cannot be cut up: the batch goes, nothing is published
      obtain ⟨node', hprocess, hkeep, hbatches⟩ :=
        processShred_dropped libs io hadd hrecover hresult
      rw [set.hasId row hrow] at hbatches
      exact .inl ⟨node', none, hprocess, hkeep, mirrorsBatch_erase hbatches, hstep⟩
    | some result =>
      refine .inr ⟨batch, payloads, result, hadd, hrecover, hresult, hbatch.slot, ?_⟩
      rw [hstep, slotData_eq libs hbatch]
      rfl

/-- **One shred**: the node and the collector make the same step. -/
theorem step_mirrors (libs : Libs) (build : Build) (io : FileIo)
    (hmax : set.id.slot.toNat + 1 < 2 ^ 64) (h : set.Mirrors state node)
    (hrow : row < set.num_data + set.num_code) :
    ∃ node', processShred libs build io node (set.shred row) = .ok node' ∧
      set.Mirrors ((set.collector libs).step state row) node' := by
  rcases step_cases libs build io h.batch hrow state.2 with
    ⟨node', opened', hprocess, hkeep, hbatch, hstep⟩ |
    ⟨batch, payloads, result, hadd, hrecover, hresult, hslot, hstep⟩
  · refine ⟨node', hprocess, ?_⟩
    rw [hstep]
    exact ⟨hbatch, by rw [hkeep.ring_buffer]; exact h.inWindow,
      by rw [hkeep.ring_buffer]; exact h.capacity, by rw [hkeep.ring_buffer]; exact h.contents⟩
  · obtain ⟨node', hprocess, hwindow, hcapacity, hcontents, hbatches⟩ :=
      processShred_inWindow libs io hadd hrecover hresult h.inWindow (by rw [hslot])
        (by
          rw [hslot, h.capacity]
          exact Nat.lt_add_of_pos_right (by decide))
        (by rw [hslot]; exact hmax)
    rw [set.hasId row hrow] at hbatches
    refine ⟨node', hprocess, ?_⟩
    rw [hstep]
    exact ⟨mirrorsBatch_erase hbatches, hwindow, hcapacity.trans h.capacity,
      by rw [hcontents, if_pos hslot.symm]⟩

/-- **A run for one set**: it returns, and its slot has what the collector
kept. -/
theorem run_follows (set : EncodedSet) (libs : Libs) (build : Build) (file_store : FlatFileStore)
    (disk : Disk) (stats : PipelineStats) (hmax : set.id.slot.toNat + 1 < 2 ^ 64)
    {order : List (ℕ × FileIo)} (horder : ∀ d ∈ order, d.1 < set.num_data + set.num_code) :
    ∃ node, run libs build (Node.start file_store disk stats)
        (order.map fun d => (set.shred d.1, d.2)) = .ok node ∧
      node.ring_buffer.get set.id.slot =
        .ok ((set.collector libs).run (order.map Prod.fst)).2 := by
  have hstart : set.Mirrors ((set.collector libs).run (([] : List (ℕ × FileIo)).map Prod.fst))
      (Node.start file_store disk stats) := mirrors_start set file_store disk stats
  -- induction over the deliveries, with `Mirrors` of what was seen so far
  obtain ⟨node, hrun, hmirrors⟩ := foldlM_invariant
    (f := fun node (d : ℕ × FileIo) => processShred libs build d.2 node (set.shred d.1))
    (fun seen node => set.Mirrors ((set.collector libs).run (seen.map Prod.fst)) node)
    (fun seen node d hd h => by
      obtain ⟨node', hstep, hmirrors⟩ := step_mirrors libs build d.2 hmax h hd
      refine ⟨node', hstep, ?_⟩
      rw [List.map_append, Collector.run, Collector.runFrom_append]
      exact hmirrors)
    horder hstart
  refine ⟨node, ?_, ?_⟩
  · rw [run, List.foldlM_map]
    exact hrun
  · rw [get_eq hmirrors.inWindow.capacity_ne_zero, hmirrors.contents, List.nil_append]

/-! ### The last slot -/

/-- The slot is `u64::MAX`. -/
def LastSlot (set : EncodedSet) : Prop := set.id.slot.toNat + 1 = 2 ^ 64

/-- The last slot of all is never served. -/
theorem get_lastSlot {buf : SlotRingBuffer} {slot : UInt64} (h : slot.toNat + 1 = 2 ^ 64) :
    buf.get slot = .ok none := by
  have htail : slot ≥ buf.tail := by
    have := buf.tail.toNat_lt
    show buf.tail.toNat ≤ slot.toNat
    omega
  rw [SlotRingBuffer.get, if_pos (.inr htail)]
  rfl

/-- A debug build cannot compute the slot after the last one. -/
theorem put_debug_lastSlot {buf buf' : SlotRingBuffer} {slot_data : SlotData}
    (hlast : slot_data.slot.toNat + 1 = 2 ^ 64) : buf.put .debug slot_data ≠ .ok buf' := by
  intro hput
  have hfits := (put_debug_returns_iff (put_eq_ok hput).1).mp ⟨buf', hput⟩
  have := buf.tail.toNat_lt
  have := hfits.tail (by omega)
  omega

theorem put_release (buf : SlotRingBuffer) (hcap : buf.capacity ≠ 0) (slot_data : SlotData) :
    ∃ buf', buf.put .release slot_data = .ok buf' := by
  obtain ⟨mid, hmid, -, -, -, -⟩ := setSlot_ok hcap slot_data
  have hadd : ∀ x y, addU64 .release x y = .ok (x + y) := fun x y => Build.check_release _ _
  have hsub : ∀ x y, subU64 .release x y = .ok (x - y) := fun x y => Build.check_release _ _
  rw [put, hmid, ok_bind, nextHead, nextTail]
  simp only [hadd, hsub, ok_bind]
  split_ifs <;> exact ⟨_, rfl⟩

/-- What a shred leaves when it returns. -/
theorem mirrorsBatch_step {build : Build} {io : FileIo} {node' : Node}
    (h : set.MirrorsBatch opened node) (hcap : node.ring_buffer.capacity ≠ 0)
    (hrow : row < set.num_data + set.num_code) (kept : Option SlotData)
    (hstep : processShred libs build io node (set.shred row) = .ok node') :
    set.MirrorsBatch ((set.collector libs).step (opened, kept) row).1 node' ∧
      node'.ring_buffer.capacity ≠ 0 := by
  rcases step_cases libs build io h hrow kept with
    ⟨mid, opened', hprocess, hkeep, hbatch, hcollector⟩ |
    ⟨batch, payloads, result, hadd, hrecover, hresult, -, hcollector⟩
  · cases hstep.symm.trans hprocess
    rw [hcollector, hkeep.ring_buffer]
    exact ⟨hbatch, hcap⟩
  · obtain ⟨-, hcapacity, -⟩ :=
      put_eq_ok (publishes_of_recovers hadd hrecover hresult hstep).put
    obtain ⟨batch', hadd', hcases⟩ := processShred_eq_ok hstep
    cases hadd.symm.trans hadd'
    rw [hcollector, hcapacity]
    rcases hcases with ⟨hnone, -⟩ | ⟨-, -, hbatches, -⟩
    · cases hrecover.symm.trans hnone
    · rw [set.hasId row hrow] at hbatches
      exact ⟨mirrorsBatch_erase hbatches, hcap⟩

/-- A shred returns when its build is a release build, or when it publishes
nothing. -/
theorem step_lastSlot {build : Build} {io : FileIo} (hlast : set.LastSlot)
    (h : set.MirrorsBatch opened node) (hcap : node.ring_buffer.capacity ≠ 0)
    (hrow : row < set.num_data + set.num_code) :
    Returns (processShred libs build io node (set.shred row)) ↔
      build = .release ∨ ((set.collector libs).step (opened, none) row).2 = none := by
  rcases step_cases libs build io h hrow none with
    ⟨node', opened', hprocess, -, -, hcollector⟩ |
    ⟨batch, payloads, result, hadd, hrecover, hresult, hslot, hcollector⟩
  · rw [hcollector]
    exact iff_of_true ⟨node', hprocess⟩ (.inr rfl)
  · rw [hcollector]
    cases build with
    | debug =>
      refine iff_of_false ?_ (by simp)
      rintro ⟨node', hprocess⟩
      refine put_debug_lastSlot ?_ (publishes_of_recovers hadd hrecover hresult hprocess).put
      show batch.slot.toNat + 1 = 2 ^ 64
      rw [hslot]
      exact hlast
    | release =>
      obtain ⟨ring_buffer, hput⟩ := put_release node.ring_buffer hcap (slotData libs batch result)
      obtain ⟨node', hprocess, -⟩ := processShred_published libs io hadd hrecover hresult hput
      exact iff_of_true ⟨node', hprocess⟩ (.inl rfl)

/-- **A run for a set of the last slot**: a release build returns, a debug build
as long as nothing is published. -/
theorem run_lastSlot (set : EncodedSet) (libs : Libs) (build : Build) (file_store : FlatFileStore)
    (disk : Disk) (stats : PipelineStats) (hlast : set.LastSlot) {order : List (ℕ × FileIo)}
    (horder : ∀ d ∈ order, d.1 < set.num_data + set.num_code) :
    Returns (run libs build (Node.start file_store disk stats)
        (order.map fun d => (set.shred d.1, d.2))) ↔
      build = .release ∨ ((set.collector libs).run (order.map Prod.fst)).2 = none := by
  -- induction on the deliveries, the last one split off, with what the run so far left
  suffices h : (∀ node, run libs build (Node.start file_store disk stats)
        (order.map fun d => (set.shred d.1, d.2)) = .ok node →
        set.MirrorsBatch ((set.collector libs).run (order.map Prod.fst)).1 node ∧
          node.ring_buffer.capacity ≠ 0) ∧
      (Returns (run libs build (Node.start file_store disk stats)
        (order.map fun d => (set.shred d.1, d.2))) ↔
      build = .release ∨ ((set.collector libs).run (order.map Prod.fst)).2 = none) from h.2
  induction order using List.reverseRecOn with
  | nil =>
    refine ⟨fun node hnode => ?_, iff_of_true ⟨_, rfl⟩ (.inr rfl)⟩
    cases hnode
    exact ⟨mirrorsBatch_start set file_store disk stats, (by decide : (500 : UInt64) ≠ 0)⟩
  | append_singleton order d ih =>
    obtain ⟨ihmirrors, ihreturns⟩ := ih fun d' hd' => horder d' (List.mem_append_left _ hd')
    have hrow := horder d (by simp)
    have hrun : ∀ {node}, run libs build (Node.start file_store disk stats)
        ((order ++ [d]).map fun d => (set.shred d.1, d.2)) = .ok node ↔
        ∃ mid, run libs build (Node.start file_store disk stats)
          (order.map fun d => (set.shred d.1, d.2)) = .ok mid ∧
          processShred libs build d.2 mid (set.shred d.1) = .ok node := by
      intro node
      rw [run, List.map_append]
      exact foldlM_concat_eq_ok
    have hcollector : (set.collector libs).run ((order ++ [d]).map Prod.fst) =
        (set.collector libs).step ((set.collector libs).run (order.map Prod.fst)) d.1 := by
      rw [List.map_append]
      exact Collector.runFrom_append_singleton _ _ _
    rw [hcollector]
    constructor
    · intro node hnode
      obtain ⟨mid, hmid, hprocess⟩ := hrun.mp hnode
      obtain ⟨hbatch, hcap⟩ := ihmirrors mid hmid
      exact mirrorsBatch_step hbatch hcap hrow _ hprocess
    · have hreturns : Returns (run libs build (Node.start file_store disk stats)
          ((order ++ [d]).map fun d => (set.shred d.1, d.2))) ↔
          ∃ mid, run libs build (Node.start file_store disk stats)
            (order.map fun d => (set.shred d.1, d.2)) = .ok mid ∧
            Returns (processShred libs build d.2 mid (set.shred d.1)) := by
        simp only [Returns, hrun]
        exact ⟨fun ⟨node, mid, hmid, h⟩ => ⟨mid, hmid, node, h⟩,
          fun ⟨mid, hmid, node, h⟩ => ⟨node, mid, hmid, h⟩⟩
      have hstep : ∀ mid, run libs build (Node.start file_store disk stats)
          (order.map fun d => (set.shred d.1, d.2)) = .ok mid →
          (Returns (processShred libs build d.2 mid (set.shred d.1)) ↔ build = .release ∨
            ((set.collector libs).step
              (((set.collector libs).run (order.map Prod.fst)).1, none) d.1).2 = none) := by
        intro mid hmid
        obtain ⟨hbatch, hcap⟩ := ihmirrors mid hmid
        exact step_lastSlot hlast hbatch hcap hrow
      rw [hreturns, Collector.step_eq_none_iff, or_and_left, ← ihreturns]
      constructor
      · rintro ⟨mid, hmid, h⟩
        exact ⟨⟨mid, hmid⟩, (hstep mid hmid).mp h⟩
      · rintro ⟨⟨mid, hmid⟩, h⟩
        exact ⟨mid, hmid, (hstep mid hmid).mpr h⟩

end EncodedSet

end Sg32
