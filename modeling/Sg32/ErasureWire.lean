/-
Erasure recovery on wire packets.

A leader computes the parity over the erasure shard of each data packet, which
starts at byte 64, and a code packet carries it from byte 89 on.  The parser
hands the decoder the data bytes from byte 88 on and the parity bytes from byte
89 on, so the two are 24 columns apart.

* `foldlM_receive` — the batch after the packets of the given rows;
* `byteAt_dataPayload`, `byteAt_codePayload` — the columns of both payloads in
  the packets;
* `receive_tryRecover_iff` — when recovery gives the payloads of the packets.
-/
import Sg32.ShredBatch
import Sg32.ShredLayout

namespace Sg32

open Rust Bytes
open WireShred (bareSeal sampleCommonHeader sampleData)

/-- The bytes from 64 up to the start of the Merkle proof. -/
def WireData.erasureShard (wire : WireData) : Bytes :=
  (wire.packet.drop 64).take (SIZE_OF_DATA_SHRED - 20 * wire.footer.merkle_proof.length
    - sizeOfResigned wire.footer.resigned - 64)

/-- The bytes from 89 up to the start of the Merkle proof. -/
def WireCode.erasureShard (wire : WireCode) : Bytes :=
  wire.payload ++ wire.footer.merkle_root.toList

/-- The packets of an erasure set, laid out with one proof size. -/
structure WireSet (num_data num_code : ℕ) where
  id : ErasureSetId
  proof_size : ℕ
  resigned : Bool
  data : List WireData
  code : List WireCode
  length_data : data.length = num_data
  length_code : code.length = num_code
  data_proof : ∀ d ∈ data, d.footer.merkle_proof.length = proof_size
  data_resigned : ∀ d ∈ data, d.footer.resigned = resigned
  code_proof : ∀ c ∈ code, c.footer.merkle_proof.length = proof_size
  code_resigned : ∀ c ∈ code, c.footer.resigned = resigned
  index : ∀ (i : ℕ) (d : WireData), data[i]? = some d →
    d.common_header.fec_set_index = id.fec_set_index ∧
      d.common_header.index.toNat = id.fec_set_index.toNat + i
  position : ∀ (i : ℕ) (c : WireCode), code[i]? = some c → c.coding_header.position.toNat = i
  encoded : 0 < num_data → encode (data.map WireData.erasureShard)
    (generateCauchyMatrix num_data num_code) num_code = .ok (code.map WireCode.erasureShard)

/-- Parse a packet and add the shred to the batch. -/
def FecBatch.receive (build : Build) (batch : FecBatch) (packet : Bytes) : Checked FecBatch :=
  match Shred.parseFromBytes packet with
  | some shred => batch.addShred build shred
  | none => pure batch

theorem FecBatch.receive_eq {build : Build} {batch : FecBatch} {packet : Bytes} {shred : Shred}
    (h : Shred.parseFromBytes packet = some shred) :
    batch.receive build packet = batch.addShred build shred := by
  rw [receive, h]

namespace WireSet

variable {num_data num_code : ℕ} (set : WireSet num_data num_code)

/-- The packet of a row of the set. -/
def packet (row : ℕ) : Bytes :=
  shredAt (set.data.map WireData.packet) (set.code.map WireCode.packet) row

/-- The payloads of the data packets and of the code packets. -/
def dataPayloads : List Bytes := set.data.map WireData.payload

def codePayloads : List Bytes := set.code.map WireCode.payload

@[simp] theorem length_dataPayloads : set.dataPayloads.length = num_data := by
  simp [dataPayloads, set.length_data]

@[simp] theorem length_codePayloads : set.codePayloads.length = num_code := by
  simp [codePayloads, set.length_code]

/-! ### Receiving packets -/

/-- A packet of the set parses to the shred of its row. -/
theorem isRow_packet {row : ℕ} (hrow : row < num_data + num_code) :
    ∃ shred, Shred.parseFromBytes (set.packet row) = some shred ∧
      FecBatch.IsRow set.dataPayloads set.codePayloads row shred := by
  by_cases hdata : row < num_data
  · have hlt : row < set.data.length := by rw [set.length_data]; exact hdata
    have hpacket : set.packet row = (WireShred.data set.data[row]).packet := by
      rw [packet, shredAt, if_pos (by simpa using hlt),
        List.getD_eq_getElem _ _ (by simpa using hlt), List.getElem_map]
      rfl
    obtain ⟨root, proof, hparse⟩ := (WireShred.data set.data[row]).parseFromBytes_wire
    obtain ⟨hset, hindex⟩ := set.index row _ (List.getElem?_eq_getElem hlt)
    have hpayload : set.dataPayloads[row]? = some set.data[row].payload := by
      simp [dataPayloads, hlt]
    rw [hpacket]
    exact ⟨_, hparse, by rw [hset, hindex], hpayload⟩
  · -- a code packet names its position
    have hlt : row - num_data < set.code.length := by rw [set.length_code]; omega
    have hpacket : set.packet row = (WireShred.code set.code[row - num_data]).packet := by
      rw [packet, shredAt, List.length_map, set.length_data, if_neg hdata,
        List.getD_eq_getElem _ _ (by simpa using hlt), List.getElem_map]
      rfl
    obtain ⟨root, proof, hparse⟩ := (WireShred.code set.code[row - num_data]).parseFromBytes_wire
    have hposition := set.position _ _ (List.getElem?_eq_getElem hlt)
    have hpayload : set.codePayloads[row - num_data]? = some set.code[row - num_data].payload := by
      simp [codePayloads, hlt]
    rw [hpacket]
    refine ⟨_, hparse, ?_, by rw [hposition]; exact hpayload⟩
    rw [hposition, length_dataPayloads]
    omega

/-- The batch after the packets of some rows, in any order. -/
theorem foldlM_receive (build : Build) (rows : List ℕ)
    (hrows : ∀ row ∈ rows, row < num_data + num_code) {batch : FecBatch} {seen : Finset ℕ}
    (h : FecBatch.Holds set.dataPayloads set.codePayloads seen batch) :
    ∃ batch', (rows.map set.packet).foldlM (FecBatch.receive build) batch = .ok batch' ∧
      FecBatch.Holds set.dataPayloads set.codePayloads (seen ∪ rows.toFinset) batch' := by
  induction rows generalizing batch seen with
  | nil => exact ⟨batch, rfl, by simpa using h⟩
  | cons row rows ih =>
    obtain ⟨shred, hparse, hrow⟩ := set.isRow_packet (hrows row List.mem_cons_self)
    obtain ⟨next, hadd, hnext, -⟩ := FecBatch.holds_addShred build h hrow
    obtain ⟨last, hfold, hlast⟩ := ih (fun r hr => hrows r (List.mem_cons_of_mem row hr)) hnext
    refine ⟨last, ?_, ?_⟩
    · rw [List.map_cons, List.foldlM_cons, FecBatch.receive_eq hparse, hadd, ok_bind, hfold]
    · rwa [List.toFinset_cons, Finset.union_insert, ← Finset.insert_union]

/-! ### Columns -/

/-- The width of the erasure shards. -/
def shardSize : ℕ := SIZE_OF_DATA_SHRED - 20 * set.proof_size - sizeOfResigned set.resigned - 64

theorem proof_size_le {d : WireData} (hd : d ∈ set.data) : set.proof_size ≤ 15 := by
  rw [← set.data_proof d hd]
  exact d.footer.proof_size_le

theorem length_erasureShard {d : WireData} (hd : d ∈ set.data) :
    d.erasureShard.length = set.shardSize := by
  rw [WireData.erasureShard, List.length_take, List.length_drop, d.length_packet,
    set.data_proof d hd, set.data_resigned d hd, shardSize]
  omega

/-- A payload leaves room for the headers behind byte 64 and for the root. -/
theorem length_payload_le {d : WireData} (hd : d ∈ set.data) :
    d.payload.length + 56 ≤ set.shardSize := by
  have hfits := d.fits
  have hle := set.proof_size_le hd
  have hr : sizeOfResigned set.resigned ≤ 64 := by
    rw [sizeOfResigned, SIZE_OF_SIGNATURE]
    split_ifs <;> omega
  rw [ShredSeal.bytes, List.length_append, ShredSeal.length_merkle, ShredSeal.length_trailer,
    set.data_proof d hd, set.data_resigned d hd, SIZE_OF_DATA_SHRED] at hfits
  rw [shardSize, SIZE_OF_DATA_SHRED]
  omega

theorem length_codePayload {c : WireCode} (hc : c ∈ set.code) :
    c.payload.length + 32 = set.shardSize := by
  have hfull := c.full
  have hle := c.footer.proof_size_le
  rw [set.code_proof c hc] at hle
  have hr : sizeOfResigned set.resigned ≤ 64 := by
    rw [sizeOfResigned, SIZE_OF_SIGNATURE]
    split_ifs <;> omega
  rw [ShredSeal.bytes, List.length_append, ShredSeal.length_merkle, ShredSeal.length_trailer,
    set.code_proof c hc, set.code_resigned c hc, SIZE_OF_CODING_SHRED] at hfull
  rw [shardSize, SIZE_OF_DATA_SHRED]
  omega

/-- Columns of one family of shreds are columns of another, `off` further on. -/
theorem byteAt_map_shift {α : Type} {xs : List α} {f g : α → Bytes} {off col : ℕ}
    (h : ∀ x ∈ xs, (f x)[col]? = (g x)[off + col]?) (k : ℕ) :
    byteAt (xs.map f) k col = byteAt (xs.map g) k (off + col) := by
  simp only [byteAt, List.getD_eq_getElem?_getD, List.getElem?_map]
  cases hx : xs[k]? with
  | none => simp
  | some x =>
    simp only [Option.map_some, Option.getD_some]
    rw [h x (List.mem_of_getElem? hx)]

/-- The packets, whose columns both payloads are read from. -/
def packets : List Bytes := set.data.map WireData.packet

theorem byteAt_erasureShard {col : ℕ} (hcol : col < set.shardSize) (k : ℕ) :
    byteAt (set.data.map WireData.erasureShard) k col = byteAt set.packets k (64 + col) := by
  refine byteAt_map_shift ?_ k
  intro d hd
  rw [shardSize] at hcol
  rw [WireData.erasureShard, set.data_proof d hd, set.data_resigned d hd,
    List.getElem?_take_of_lt hcol, List.getElem?_drop]

theorem byteAt_dataPayload {col : ℕ} (hcol : ∀ d ∈ set.data, col < d.payload.length) (k : ℕ) :
    byteAt set.dataPayloads k col = byteAt set.packets k (88 + col) := by
  refine byteAt_map_shift ?_ k
  intro d hd
  have hpacket : d.packet = (d.common_header.bytes ++ d.data_header.bytes) ++ (d.payload ++
      (List.replicate d.padding 0 ++ d.footer.bytes)) := by
    rw [WireData.packet, List.append_assoc]
  have hfront : (d.common_header.bytes ++ d.data_header.bytes).length = 88 := by
    simp [SIZE_OF_COMMON_HEADER, SIZE_OF_DATA_HEADER]
  rw [hpacket, List.getElem?_append_right (by omega), hfront, Nat.add_sub_cancel_left,
    List.getElem?_append_left (hcol d hd)]

theorem parityByte_congr {P Q : List Bytes} {cauchy : List Bytes} {i col col' : ℕ}
    (hlen : P.length = Q.length) (h : ∀ k, byteAt P k col = byteAt Q k col') :
    parityByte P cauchy i col = parityByte Q cauchy i col' := by
  simp only [parityByte, hlen, h]

/-- A code payload is the parity of the data packets from byte 64 on. -/
theorem byteAt_codePayload (h0 : 0 < num_data) {i col : ℕ} (hi : i < num_code)
    (hcol : col + 32 < set.shardSize) :
    byteAt set.codePayloads i col =
      parityByte set.packets (generateCauchyMatrix num_data num_code) i (64 + col) := by
  -- the code packets are the parity of the packets from byte 64 on
  have hshards : set.code.map WireCode.erasureShard =
      parity (set.data.map WireData.erasureShard) (generateCauchyMatrix num_data num_code)
        num_code set.shardSize := by
    refine Except.ok.inj ((set.encoded h0).symm.trans (encode_eq ?_ ?_ (by simp) ?_))
    · intro hnil
      have := congrArg List.length hnil
      simp [set.length_data] at this
      omega
    · intro d hd
      obtain ⟨wire, hwire, rfl⟩ := List.mem_map.mp hd
      exact set.length_erasureShard hwire
    · intro row hrow
      rw [length_of_mem_generateCauchyMatrix hrow, List.length_map, set.length_data]
  have hpayload : byteAt set.codePayloads i col =
      byteAt (set.code.map WireCode.erasureShard) i (0 + col) := by
    refine byteAt_map_shift ?_ i
    intro c hc
    have hlen := set.length_codePayload hc
    rw [WireCode.erasureShard, Nat.zero_add, List.getElem?_append_left (by omega)]
  rw [hpayload, Nat.zero_add, hshards, parity, byteAt_map_range hi (by omega)]
  exact parityByte_congr (by simp [packets]) (set.byteAt_erasureShard (by omega))

/-! ### Recovery -/

/-- The payloads that the parser extracts from the data packets. -/
theorem map_parse_data :
    set.data.map (fun d => (Shred.parseFromBytes d.packet).map Shred.payload) =
      set.dataPayloads.map some := by
  rw [dataPayloads, List.map_map]
  refine List.map_congr_left ?_
  intro d _
  obtain ⟨root, proof, hparse⟩ := (WireShred.data d).parseFromBytes_wire
  rw [show d.packet = (WireShred.data d).packet from rfl, hparse]
  rfl

theorem length_shredAt_data {row : ℕ} (hrow : row < num_data) {d : WireData}
    (hd : set.data[row]? = some d) :
    (shredAt set.dataPayloads set.codePayloads row).length = d.payload.length := by
  rw [shredAt, length_dataPayloads, if_pos hrow, List.getD_eq_getElem?_getD, dataPayloads,
    List.getElem?_map, hd]
  rfl

theorem length_shredAt_code {row : ℕ} (hdata : num_data ≤ row) (hrow : row < num_data + num_code) :
    (shredAt set.dataPayloads set.codePayloads row).length + 32 = set.shardSize := by
  have hlt : row - num_data < set.code.length := by rw [set.length_code]; omega
  rw [shredAt, length_dataPayloads, if_neg (Nat.not_lt.mpr hdata), List.getD_eq_getElem?_getD,
    codePayloads, List.getElem?_map, List.getElem?_eq_getElem hlt]
  exact set.length_codePayload (List.getElem_mem hlt)

theorem getElem?_data {row : ℕ} (hrow : row < num_data) :
    ∃ d ∈ set.data, set.data[row]? = some d := by
  have hlt : row < set.data.length := by rw [set.length_data]; exact hrow
  exact ⟨_, List.getElem_mem hlt, List.getElem?_eq_getElem hlt⟩

/-- The 24 columns between the two payloads make no difference to the parity
rows received. -/
def ShiftInvisible (rows : List ℕ) (w : ℕ) : Prop :=
  ∀ i, num_data + i ∈ rows → ∀ col < w,
    parityByte set.packets (generateCauchyMatrix num_data num_code) i (64 + col) =
      parityByte set.packets (generateCauchyMatrix num_data num_code) i (88 + col)

/-- Recovery gives the payloads of the packets when it gives those of the rows. -/
theorem tryRecover_payloads_iff (batch : FecBatch) :
    (∃ recovered, batch.tryRecover = .ok (some recovered) ∧ recovered.map some =
        set.data.map fun d => (Shred.parseFromBytes d.packet).map Shred.payload) ↔
      batch.tryRecover = .ok (some set.dataPayloads) := by
  rw [map_parse_data]
  constructor
  · rintro ⟨recovered, hok, hmap⟩
    rwa [← List.map_injective_iff.mpr (Option.some_injective _) hmap]
  · intro hok
    exact ⟨_, hok, rfl⟩

/-- A code payload is longer than any data payload can be. -/
theorem length_shredAt_code_gt {row : ℕ} (hdata : num_data ≤ row)
    (hrow : row < num_data + num_code) {d : WireData} (hd : d ∈ set.data) :
    d.payload.length < (shredAt set.dataPayloads set.codePayloads row).length := by
  have hcode := set.length_shredAt_code hdata hrow
  have hroom := set.length_payload_le hd
  omega

/-- No row is shorter than equally long payloads. -/
theorem le_length_shredAt {row : ℕ} (hrow : row < num_data + num_code) {w : ℕ}
    (hw : ∀ d ∈ set.data, d.payload.length = w) {d : WireData} (hd : d ∈ set.data) :
    w ≤ (shredAt set.dataPayloads set.codePayloads row).length := by
  rcases Nat.lt_or_ge row num_data with hlt | hge
  · obtain ⟨d', hd', hget⟩ := set.getElem?_data hlt
    rw [set.length_shredAt_data hlt hget, hw d' hd']
  · have hlong := set.length_shredAt_code_gt hge hrow hd
    rw [hw d hd] at hlong
    exact hlong.le

/-- At the columns of the payloads, both sides are parities of the packets. -/
theorem parityByte_dataPayloads_iff {rows : List ℕ}
    (hrows : ∀ row ∈ rows, row < num_data + num_code) {w : ℕ}
    (hw : ∀ d ∈ set.data, d.payload.length = w) {d : WireData} (hd : d ∈ set.data) :
    (∀ i, num_data + i ∈ rows → ∀ col < w,
      parityByte set.dataPayloads (generateCauchyMatrix num_data num_code) i col =
        byteAt set.codePayloads i col) ↔ set.ShiftInvisible rows w := by
  have hpos : 0 < num_data := by
    rw [← set.length_data]
    exact List.length_pos_of_mem hd
  have hroom := set.length_payload_le hd
  rw [hw d hd] at hroom
  refine forall₂_congr ?_
  intro i hi
  refine forall₂_congr ?_
  intro col hcol
  have hbound : i < num_code := by
    have hrow := hrows _ hi
    omega
  have hcode := set.byteAt_codePayload hpos hbound (show col + 32 < set.shardSize by omega)
  have hdata := set.byteAt_dataPayload fun d hd => (hw d hd).symm ▸ hcol
  rw [hcode, parityByte_congr (by simp [packets, set.length_data]) hdata, eq_comm]

/-- The lowest row that was received. -/
theorem exists_first {rows : List ℕ} (h : rows ≠ []) :
    ∃ first ∈ rows, ∀ row ∈ rows, first ≤ row := by
  obtain ⟨first, hfirst, hleast⟩ :=
    rows.toFinset.exists_min_image (fun row => row) (List.toFinset_nonempty_iff rows |>.mpr h)
  exact ⟨first, List.mem_toFinset.mp hfirst, fun row hrow =>
    hleast row (List.mem_toFinset.mpr hrow)⟩

/-- Some data packet is lost: what recovery takes. -/
theorem tryRecover_lost_iff (hcode : num_code ≤ num_data) (hdata : num_data ≤ 128)
    {rows : List ℕ} (hlen : rows.length = num_data) (hnodup : rows.Nodup)
    (hrows : ∀ row ∈ rows, row < num_data + num_code) {batch : FecBatch}
    (hbatch : FecBatch.Holds set.dataPayloads set.codePayloads rows.toFinset batch)
    {missing : ℕ} (hmissing : missing < num_data) (hlost : missing ∉ rows) :
    batch.tryRecover = .ok (some set.dataPayloads) ↔
      (∃ i < num_data, i ∈ rows) ∧
        ∃ w, (∀ d ∈ set.data, d.payload.length = w) ∧ set.ShiftInvisible rows w := by
  have hne : rows ≠ [] := by
    rintro rfl
    rw [List.length_nil] at hlen
    omega
  obtain ⟨first, hfirst, hleast⟩ := exists_first hne
  obtain ⟨lost, hlostmem, -⟩ := set.getElem?_data hmissing
  rw [FecBatch.tryRecover_eq_data_iff hbatch (by simpa using hcode) (by simpa using hdata)
    (by simpa using hrows) (by rw [List.toFinset_card_of_nodup hnodup, hlen, length_dataPayloads])
    (by simpa using hmissing) (by simpa using hlost) (by simpa using hfirst)
    (by simpa using hleast)]
  simp only [List.mem_toFinset, length_dataPayloads, length_codePayloads]
  have hpayloads : ∀ w, (∀ p ∈ set.dataPayloads, p.length = w) ↔
      ∀ d ∈ set.data, d.payload.length = w := by
    intro w
    simp [dataPayloads]
  rw [hpayloads]
  constructor
  · rintro ⟨-, hw, hparity⟩
    refine ⟨?_, _, hw, (set.parityByte_dataPayloads_iff hrows hw hlostmem).mp hparity⟩
    -- the first row has the common length, which is too short for a code row
    by_contra hnone
    push Not at hnone
    have hcoderow : num_data ≤ first := by
      by_contra hlt
      exact hnone first (Nat.not_le.mp hlt) hfirst
    have hlong := set.length_shredAt_code_gt hcoderow (hrows first hfirst) hlostmem
    rw [hw lost hlostmem] at hlong
    exact lt_irrefl _ hlong
  · rintro ⟨⟨i, hi, hmem⟩, w, hw, hinvisible⟩
    -- the first row is a data row, and has the common length
    have hdatarow : first < num_data := lt_of_le_of_lt (hleast i hmem) hi
    obtain ⟨d, hd, hget⟩ := set.getElem?_data hdatarow
    rw [set.length_shredAt_data hdatarow hget, hw d hd]
    exact ⟨fun row hrow => set.le_length_shredAt (hrows row hrow) hw hlostmem, hw,
      (set.parityByte_dataPayloads_iff hrows hw hlostmem).mpr hinvisible⟩

/-- **When recovery works on packets**: every data packet arrived; or some did,
the payloads are equally long, and the parity rows received do not tell the
packet bytes from 64 on from those from 88 on. -/
theorem receive_tryRecover_iff (build : Build) (hcode : num_code ≤ num_data)
    (hdata : num_data ≤ 128) {rows : List ℕ} (hlen : rows.length = num_data)
    (hnodup : rows.Nodup) (hrows : ∀ row ∈ rows, row < num_data + num_code) :
    ∃ batch, (rows.map set.packet).foldlM (FecBatch.receive build)
        (FecBatch.new set.id.slot set.id.fec_set_index num_data num_code) = .ok batch ∧
      ((∃ recovered, batch.tryRecover = .ok (some recovered) ∧ recovered.map some =
          set.data.map fun d => (Shred.parseFromBytes d.packet).map Shred.payload) ↔
        (∀ i < num_data, i ∈ rows) ∨
          (∃ i < num_data, i ∈ rows) ∧
            ∃ w, (∀ d ∈ set.data, d.payload.length = w) ∧ set.ShiftInvisible rows w) := by
  have hnew := FecBatch.holds_new set.dataPayloads set.codePayloads set.id.slot
    set.id.fec_set_index
  simp only [length_dataPayloads, length_codePayloads] at hnew
  obtain ⟨batch, hfold, hbatch⟩ := set.foldlM_receive build rows hrows hnew
  rw [Finset.empty_union] at hbatch
  refine ⟨batch, hfold, ?_⟩
  rw [tryRecover_payloads_iff]
  by_cases hall : ∀ i < num_data, i ∈ rows
  · -- the fast path: no code row is used
    refine iff_of_true (FecBatch.tryRecover_all_of_holds hbatch ?_) (.inl hall)
    intro i hi
    exact List.mem_toFinset.mpr (hall i (by simpa using hi))
  · rw [or_iff_right hall]
    push Not at hall
    obtain ⟨missing, hmissing, hlost⟩ := hall
    exact set.tryRecover_lost_iff hcode hdata hlen hnodup hrows hbatch hmissing hlost

end WireSet

/-! ### A set of two data packets and one code packet -/

namespace WireSet

/-- A code packet without a proof, around its erasure shard. -/
def sampleCode (shard : Bytes) (h : shard.length = 1139) : WireCode where
  common_header := sampleCommonHeader 0x60 0
  coding_header := { num_data_shreds := 2, num_coding_shreds := 1, position := 0 }
  payload := shard.take 1107
  footer := bareSeal ⟨⟨shard.drop 1107⟩, by simp [h]⟩
  variant := by
    simp [sampleCommonHeader, ShredSeal.proofSize, ShredSeal.resigned, ShredVariant.toU8]
  full := by
    simp [h, ShredSeal.bytes, ShredSeal.resigned, sizeOfResigned, SIZE_OF_CODING_SHRED]

def sampleShards : List Bytes :=
  [(sampleData 0 7).erasureShard, (sampleData 1 9).erasureShard]

/-- The only code shard of the sample set. -/
def sampleParity : Bytes :=
  (List.range 1139).map (parityByte sampleShards (generateCauchyMatrix 2 1) 0)

theorem encode_sampleShards :
    encode sampleShards (generateCauchyMatrix 2 1) 1 = .ok [sampleParity] := by
  refine encode_eq (w := 1139) (by simp [sampleShards]) ?_ (by simp) ?_
  · intro d hd
    simp only [sampleShards, List.mem_cons, List.not_mem_nil, or_false] at hd
    rcases hd with rfl | rfl <;>
      simp [WireData.erasureShard, WireData.length_packet, sampleData, ShredSeal.resigned,
        sizeOfResigned, SIZE_OF_DATA_SHRED]
  · intro row hrow
    exact length_of_mem_generateCauchyMatrix hrow

def sampleSet : WireSet 2 1 where
  id := ⟨42, 0⟩
  proof_size := 0
  resigned := false
  data := [sampleData 0 7, sampleData 1 9]
  code := [sampleCode sampleParity (by simp [sampleParity])]
  length_data := rfl
  length_code := rfl
  data_proof := by simp [sampleData]
  data_resigned := by simp [sampleData, ShredSeal.resigned]
  code_proof := by simp [sampleCode]
  code_resigned := by simp [sampleCode, ShredSeal.resigned]
  index := by
    intro i d hd
    rcases i with _ | _ | i
    · cases hd
      exact ⟨rfl, rfl⟩
    · cases hd
      exact ⟨rfl, rfl⟩
    · simp at hd
  position := by
    intro i c hc
    rcases i with _ | i
    · cases hc
      rfl
    · simp at hc
  encoded := by
    intro _
    refine encode_sampleShards.trans ?_
    simp [WireCode.erasureShard, sampleCode, Vector.toList]

/-- The first data packet and the code packet of the sample set: every
hypothesis holds, and the second payload does not come back. -/
theorem receive_tryRecover_sample : ∃ batch,
    ([0, 2].map sampleSet.packet).foldlM (FecBatch.receive .release)
      (FecBatch.new sampleSet.id.slot sampleSet.id.fec_set_index 2 1) = .ok batch ∧
    ((∃ recovered, batch.tryRecover = .ok (some recovered) ∧ recovered.map some =
        sampleSet.data.map fun d => (Shred.parseFromBytes d.packet).map Shred.payload) ↔
      (∀ i < 2, i ∈ [0, 2]) ∨
        (∃ i < 2, i ∈ [0, 2]) ∧
          ∃ w, (∀ d ∈ sampleSet.data, d.payload.length = w) ∧
            sampleSet.ShiftInvisible [0, 2] w) :=
  sampleSet.receive_tryRecover_iff .release (by decide) (by decide) rfl (by decide) (by decide)

theorem receive_tryRecover_shifted :
    ¬ ∀ (build : Build) (num_data num_code : ℕ) (set : WireSet num_data num_code),
      num_code ≤ num_data → num_data ≤ 128 → ∀ rows : List ℕ, rows.length = num_data →
      rows.Nodup → (∀ row ∈ rows, row < num_data + num_code) →
      ∃ batch recovered, (rows.map set.packet).foldlM (FecBatch.receive build)
          (FecBatch.new set.id.slot set.id.fec_set_index num_data num_code) = .ok batch ∧
        batch.tryRecover = .ok (some recovered) ∧ recovered.map some =
          set.data.map fun d => (Shred.parseFromBytes d.packet).map Shred.payload := by
  intro h
  obtain ⟨batch, recovered, hfold, hrecover, hpayloads⟩ := h .release 2 1 sampleSet (by decide)
    (by decide) [0, 2] rfl (by decide) (by decide)
  have hrun : (([0, 2].map sampleSet.packet).foldlM (FecBatch.receive .release)
      (FecBatch.new 42 0 2 1) >>= FecBatch.tryRecover) ≠ .ok (some [[7], [9]]) := by
    decide +kernel
  refine hrun ?_
  rw [map_parse_data] at hpayloads
  have hdata : recovered = [[7], [9]] :=
    List.map_injective_iff.mpr (Option.some_injective _) hpayloads
  rw [← hdata, ← hrecover]
  exact congrArg (· >>= FecBatch.tryRecover) hfold

end WireSet

end Sg32
