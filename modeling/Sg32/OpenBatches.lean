/-
The batches that wait for more shreds (`process_shred` in `main.rs`).

The pipeline keeps one batch for each erasure set of which shreds arrived, and
only a recovery takes it away again.

* `run_lookup`, `sameBatch_of_shredsOf` — erasure sets do not interfere: the
  batch of a set is what its own shreds make of it;
* `run_openBatch` — what an open batch holds came from shreds of its set, and
  is not enough to recover it;
* `run_statsShow` — the statistics describe the block that is stored.
-/
import Sg32.Recoveries

namespace Sg32

open Rust FecBatch SlotRingBuffer

variable {libs : Libs} {build : Build} {io : FileIo} {node node' : Node} {shred : Shred}
  {id : ErasureSetId} {batch batch' : FecBatch}

/-! ### One set -/

/-- The batch of the set of a shred before it is added. -/
def openedFor (opened : Option FecBatch) (shred : Shred) : FecBatch :=
  opened.getD (FecBatch.new shred.erasureSetId.slot shred.erasureSetId.fec_set_index
    (batchDims shred).1 (batchDims shred).2)

/-- What a shred does to the batch of its set: the batch waits, or it is
recovered and gone. -/
def batchStep (build : Build) (opened : Option FecBatch) (shred : Shred) :
    Checked (Option FecBatch) := do
  let batch ← (openedFor opened shred).addShred build shred
  let recovered ← batch.tryRecover
  pure (if recovered.isSome then none else some batch)

/-- A shred moves the batch of its own set. -/
theorem step_lookup (h : processShred libs build io node shred = .ok node') :
    batchStep build (node.batches.lookup shred.erasureSetId) shred =
      .ok (node'.batches.lookup shred.erasureSetId) := by
  obtain ⟨batch, hadd, hcases⟩ := processShred_eq_ok h
  have hopened : (openedFor (node.batches.lookup shred.erasureSetId) shred).addShred build shred =
      .ok batch := hadd
  rw [batchStep, hopened, ok_bind]
  rcases hcases with ⟨hnone, -, hbatches⟩ | ⟨recovered, hsome, hbatches, -⟩
  · rw [hnone, ok_bind, hbatches, AList.lookup_insert]
    rfl
  · rw [hsome, ok_bind, hbatches, AList.lookup_erase]
    rfl

/-- A shred leaves the batches of the other sets alone. -/
theorem step_lookup_other (h : processShred libs build io node shred = .ok node')
    (hid : shred.erasureSetId ≠ id) : node'.batches.lookup id = node.batches.lookup id := by
  obtain ⟨batch, -, hcases⟩ := processShred_eq_ok h
  rcases hcases with ⟨-, -, hbatches⟩ | ⟨recovered, -, hbatches, -⟩
  · rw [hbatches, AList.lookup_insert_ne hid.symm]
  · rw [hbatches, AList.lookup_erase_ne hid.symm]

/-- The shreds of one set, in order of arrival. -/
def shredsOf (id : ErasureSetId) (deliveries : List Delivery) : List Shred :=
  (deliveries.map Prod.fst).filter fun shred => shred.erasureSetId = id

/-- **Erasure sets do not interfere**: the batch of a set, or that there is
none, follows from the shreds of this set alone. -/
theorem run_lookup (id : ErasureSetId) {deliveries : List Delivery}
    (h : run libs build node deliveries = .ok node') :
    (shredsOf id deliveries).foldlM (batchStep build) (node.batches.lookup id) =
      .ok (node'.batches.lookup id) := by
  induction deliveries using List.reverseRecOn generalizing node' with
  | nil =>
    cases h
    rfl
  | append_singleton deliveries delivery ih =>
    obtain ⟨mid, hmid, hstep⟩ := foldlM_concat_eq_ok.mp h
    rw [shredsOf, List.map_append, List.filter_append, List.map_singleton]
    by_cases hid : delivery.1.erasureSetId = id
    · rw [List.filter_singleton, decide_eq_true hid, Bool.cond_true, foldlM_concat_eq_ok]
      subst hid
      exact ⟨_, ih hmid, step_lookup hstep⟩
    · rw [List.filter_singleton, decide_eq_false hid, Bool.cond_false, List.append_nil,
        step_lookup_other hstep hid]
      exact ih hmid

/-- Three shreds of slot 7 leave a batch. -/
theorem exists_run_few : ∃ node, run sampleLibs .debug (.start .empty ∅ {})
    (smallDeliveries.take 3) = .ok node ∧
      (node.batches.lookup (smallSet 7).id).isSome = true := by
  have hsome : ((run sampleLibs .debug (.start .empty ∅ {}) (smallDeliveries.take 3)).toOption.bind
      fun node => node.batches.lookup (smallSet 7).id).isSome = true := by
    decide +kernel
  rcases hrun : run sampleLibs .debug (.start .empty ∅ {}) (smallDeliveries.take 3) with p | node
  · rw [hrun] at hsome
    cases hsome
  · rw [hrun] at hsome
    exact ⟨node, rfl, hsome⟩

/-- **Erasure sets do not interfere**: two nodes to which the shreds of a set
came in one order have the same batch of it, whatever else came to them, and
whichever files and statistics they began with. -/
theorem sameBatch_of_shredsOf {node₁ node₂ : Node} {file_store₁ file_store₂ : FlatFileStore}
    {disk₁ disk₂ : Disk} {stats₁ stats₂ : PipelineStats} {deliveries₁ deliveries₂ : List Delivery}
    (h₁ : run libs build (.start file_store₁ disk₁ stats₁) deliveries₁ = .ok node₁)
    (h₂ : run libs build (.start file_store₂ disk₂ stats₂) deliveries₂ = .ok node₂)
    (hshreds : shredsOf id deliveries₁ = shredsOf id deliveries₂) :
    node₁.batches.lookup id = node₂.batches.lookup id := by
  have hlookup₁ := run_lookup id h₁
  have hlookup₂ := run_lookup id h₂
  rw [hshreds] at hlookup₁
  exact Except.ok.inj (hlookup₁.symm.trans hlookup₂)

/-- The three shreds with one of slot 9 among them. -/
theorem sameBatch_of_shredsOf_sample : ∃ node₁ node₂ : Node,
    run sampleLibs .debug (.start .empty ∅ {}) (smallDeliveries.take 3) = .ok node₁ ∧
      run sampleLibs .debug (.start .empty ∅ {})
        (smallDeliveries.take 1 ++ smallDeliveries.drop 64 ++ (smallDeliveries.take 3).drop 1) =
          .ok node₂ ∧
      node₁.batches.lookup (smallSet 7).id = node₂.batches.lookup (smallSet 7).id := by
  obtain ⟨node₁, h₁, -⟩ := exists_run_few
  have hsome : (run sampleLibs .debug (.start .empty ∅ {}) (smallDeliveries.take 1 ++
      smallDeliveries.drop 64 ++ (smallDeliveries.take 3).drop 1)).toOption.isSome = true := by
    decide +kernel
  rcases h₂ : run sampleLibs .debug (.start .empty ∅ {}) (smallDeliveries.take 1 ++
      smallDeliveries.drop 64 ++ (smallDeliveries.take 3).drop 1) with p | node₂
  · rw [h₂] at hsome
    cases hsome
  · exact ⟨node₁, node₂, h₁, rfl, sameBatch_of_shredsOf h₁ h₂ (by decide +kernel)⟩

/-! ### What an open batch holds -/

/-- The shred has this payload for this position of its batch. -/
def HasData (shred : Shred) (i : ℕ) (bytes : Bytes) : Prop :=
  match shred with
  | .merkleData common_header _ _ _ data =>
    (common_header.index - common_header.fec_set_index).toNat = i ∧ data = bytes
  | .merkleCode _ _ _ _ _ => False

def HasCode (shred : Shred) (i : ℕ) (bytes : Bytes) : Prop :=
  match shred with
  | .merkleData _ _ _ _ _ => False
  | .merkleCode _ coding_header _ _ code => coding_header.position.toNat = i ∧ code = bytes

/-- A batch filled from these shreds. -/
structure FilledFrom (shreds : List Shred) (batch : FecBatch) : Prop where
  dims : ∃ shred ∈ shreds, (batch.num_data, batch.num_code) = batchDims shred
  data : ∀ i bytes, batch.data_shreds[i]? = some (some bytes) →
    ∃ shred ∈ shreds, HasData shred i bytes
  code : ∀ i bytes, batch.code_shreds[i]? = some (some bytes) →
    ∃ shred ∈ shreds, HasCode shred i bytes

theorem FilledFrom.mono {shreds shreds' : List Shred} (h : FilledFrom shreds batch)
    (hsub : shreds ⊆ shreds') : FilledFrom shreds' batch where
  dims := by
    obtain ⟨shred, hmem, hdims⟩ := h.dims
    exact ⟨shred, hsub hmem, hdims⟩
  data i bytes hi := by
    obtain ⟨shred, hmem, hshred⟩ := h.data i bytes hi
    exact ⟨shred, hsub hmem, hshred⟩
  code i bytes hi := by
    obtain ⟨shred, hmem, hshred⟩ := h.code i bytes hi
    exact ⟨shred, hsub hmem, hshred⟩

theorem filledFrom_new (shred : Shred) : FilledFrom [shred]
    (FecBatch.new shred.erasureSetId.slot shred.erasureSetId.fec_set_index
      (batchDims shred).1 (batchDims shred).2) where
  dims := ⟨shred, List.mem_singleton_self shred, rfl⟩
  data i bytes hi := by
    obtain ⟨_, hrep⟩ := List.getElem?_eq_some_iff.mp hi
    simp [FecBatch.new] at hrep
  code i bytes hi := by
    obtain ⟨_, hrep⟩ := List.getElem?_eq_some_iff.mp hi
    simp [FecBatch.new] at hrep

/-- A position that was taken before, or that this payload takes. -/
theorem getElem?_insertFirst_cases {count : ℕ} {shreds : List (Option Bytes)}
    (hcount : shreds.length = count) {i j : ℕ} {data bytes : Bytes}
    (h : (insertFirst count shreds i data).1[j]? = some (some bytes)) :
    shreds[j]? = some (some bytes) ∨ i = j ∧ data = bytes := by
  rw [getElem?_insertFirst hcount] at h
  split_ifs at h with hj
  · cases h
    exact .inr ⟨hj.1.symm, rfl⟩
  · exact .inl h

/-- Adding a shred adds what the shred has, and keeps slot, index and dimensions. -/
theorem filledFrom_addShred {shreds : List Shred} (h : FilledFrom shreds batch)
    (hadd : batch.addShred build shred = .ok batch') :
    FilledFrom (shreds ++ [shred]) batch' ∧ batch'.slot = batch.slot ∧
      batch'.fec_set_index = batch.fec_set_index := by
  have hmono := h.mono (List.subset_append_left shreds [shred])
  have hmem : shred ∈ shreds ++ [shred] := List.mem_append_right _ (List.mem_singleton_self shred)
  cases shred with
  | merkleData common_header data_header merkle_root merkle_proof data =>
    obtain ⟨data_index, hindex, hadd⟩ := bind_eq_ok.mp hadd
    have hvalue : data_index = common_header.index - common_header.fec_set_index := by
      unfold subU32 Build.check at hindex
      split_ifs at hindex
      · cases hindex
        rfl
      · cases build <;> cases hindex
        rfl
    have hfilled : FilledFrom _ (batch.addDataShred data_index data).1 :=
      { dims := hmono.dims
        data := fun i bytes hi => by
          rcases getElem?_insertFirst_cases batch.length_data_shreds hi with hold | ⟨rfl, rfl⟩
          · exact hmono.data i bytes hold
          · exact ⟨_, hmem, by rw [hvalue], rfl⟩
        code := hmono.code }
    dsimp only at hadd
    split_ifs at hadd
    · cases hadd
      exact ⟨⟨hfilled.dims, hfilled.data, hfilled.code⟩, rfl, rfl⟩
    · cases hadd
      exact ⟨hfilled, rfl, rfl⟩
  | merkleCode common_header coding_header merkle_root merkle_proof code =>
    cases hadd
    refine ⟨⟨hmono.dims, hmono.data, fun i bytes hi => ?_⟩, rfl, rfl⟩
    rcases getElem?_insertFirst_cases batch.length_code_shreds hi with hold | ⟨rfl, rfl⟩
    · exact hmono.code i bytes hold
    · exact ⟨_, hmem, by simp, rfl⟩

/-- An open batch of a set of which these shreds arrived. -/
structure OpenBatch (id : ErasureSetId) (shreds : List Shred) (batch : FecBatch) : Prop where
  slot : batch.slot = id.slot
  fec_set_index : batch.fec_set_index = id.fec_set_index
  filled : FilledFrom shreds batch
  waits : ¬ batch.Recoverable

/-- The batch that a shred is added to, whether it was open or is new. -/
theorem filledFrom_openedFor {shreds : List Shred} {opened : Option FecBatch}
    (h : ∀ batch, opened = some batch → OpenBatch shred.erasureSetId shreds batch) :
    FilledFrom (shreds ++ [shred]) (openedFor opened shred) ∧
      (openedFor opened shred).slot = shred.erasureSetId.slot ∧
      (openedFor opened shred).fec_set_index = shred.erasureSetId.fec_set_index := by
  cases opened with
  | none => exact ⟨(filledFrom_new shred).mono (List.subset_append_right _ _), rfl, rfl⟩
  | some batch =>
    have hopen := h batch rfl
    exact ⟨hopen.filled.mono (List.subset_append_left _ _), hopen.slot, hopen.fec_set_index⟩

theorem step_openBatch {shreds : List Shred} {opened : Option FecBatch}
    (h : ∀ batch, opened = some batch → OpenBatch shred.erasureSetId shreds batch)
    (hstep : batchStep build opened shred = .ok (some batch)) :
    OpenBatch shred.erasureSetId (shreds ++ [shred]) batch := by
  obtain ⟨batch', hadd, hstep⟩ := bind_eq_ok.mp hstep
  obtain ⟨recovered, hrecover, hstep⟩ := bind_eq_ok.mp hstep
  have hwaits := tryRecover_isSome_iff hrecover
  cases recovered with
  | some recovered => cases hstep
  | none =>
    cases hstep
    obtain ⟨hfilled, hslot, hindex⟩ := filledFrom_openedFor h
    obtain ⟨hfilled', hslot', hindex'⟩ := filledFrom_addShred hfilled hadd
    refine ⟨hslot'.trans hslot, hindex'.trans hindex, hfilled'.mono ?_, fun hrecoverable => ?_⟩
    · simp
    · exact absurd (hwaits.mpr hrecoverable) Bool.false_ne_true

/-- **What waits in a batch** was delivered for its set, and is not enough. -/
theorem run_openBatch {file_store : FlatFileStore} {disk : Disk} {stats : PipelineStats}
    {deliveries : List Delivery}
    (h : run libs build (.start file_store disk stats) deliveries = .ok node)
    (hopen : node.batches.lookup id = some batch) :
    OpenBatch id (shredsOf id deliveries) batch := by
  have hrun := run_lookup id h
  have hid : ∀ shred ∈ shredsOf id deliveries, shred.erasureSetId = id := fun shred hmem =>
    of_decide_eq_true (List.mem_filter.mp hmem).2
  have hstart : (Node.start file_store disk stats).batches.lookup id = none :=
    AList.lookup_empty id
  rw [hopen, hstart] at hrun
  clear hopen
  -- induction on the shreds of the set, the last one split off
  generalize shredsOf id deliveries = shreds at hrun hid
  induction shreds using List.reverseRecOn generalizing batch with
  | nil => cases hrun
  | append_singleton shreds shred ih =>
    obtain ⟨opened, hopened, hstep⟩ := foldlM_concat_eq_ok.mp hrun
    obtain rfl := hid shred (by simp)
    refine step_openBatch (fun batch' hbatch' => ?_) hstep
    rw [hbatch'] at hopened
    exact ih hopened fun shred' hmem => hid shred' (List.mem_append_left _ hmem)

theorem run_openBatch_sample : ∃ batch,
    OpenBatch (smallSet 7).id (shredsOf (smallSet 7).id (smallDeliveries.take 3)) batch := by
  obtain ⟨node, hrun, hsome⟩ := exists_run_few
  obtain ⟨batch, hbatch⟩ := Option.isSome_iff_exists.mp hsome
  exact ⟨batch, run_openBatch hrun hbatch⟩

/-! ### Statistics -/

/-- The statistics show this block, which was put into the ring buffer last and
is in the cell of its slot. -/
structure ShowsBlock (node : Node) (data : SlotData) : Prop where
  stored : node.ring_buffer.stored node.stats.latest_slot = some data
  slot : data.slot = node.stats.latest_slot
  txs : data.num_transactions = node.stats.latest_block_txs
  root : data.merkle_root = some node.stats.latest_block_root
  tree : data.merkle_tree.map MerkleTree.root = some node.stats.latest_block_root

/-- The statistics agree with the ring buffer: they show the last block and the
length, or nothing was recovered. -/
structure StatsShow (node : Node) : Prop where
  capacity : node.ring_buffer.capacity ≠ 0
  none : node.stats.total_blocks_recovered = 0 →
    node.stats.latest_slot = 0 ∧ ∀ slot, node.ring_buffer.stored slot = none
  some : 0 < node.stats.total_blocks_recovered → ∃ data, ShowsBlock node data
  len : node.stats.blocks_in_ring_buffer = node.ring_buffer.len

theorem statsShow_start (file_store : FlatFileStore) (disk : Disk) :
    StatsShow (.start file_store disk {}) where
  capacity := (by decide : (500 : UInt64) ≠ 0)
  none _ := ⟨rfl, fun slot => stored_new 500 slot⟩
  some h := absurd h (lt_irrefl 0)
  len := rfl

/-- What one shred does to the statistics: they show the new batch, and nothing
else changes, or they count and show what was published. -/
theorem processShred_stats (h : processShred libs build io node shred = .ok node') :
    node'.stats.current_batch = currentBatch (openBatch node.batches shred) shred ∧
      ((node'.ring_buffer = node.ring_buffer ∧
          node'.stats = { node.stats with current_batch := node'.stats.current_batch }) ∨
        ∃ batch result, node.ring_buffer.put build (slotData libs batch result) =
            .ok node'.ring_buffer ∧
          node'.stats.latest_slot = batch.slot ∧
          node'.stats.total_blocks_recovered = node.stats.total_blocks_recovered + 1 ∧
          node'.stats.latest_block_txs = result.transactions.length ∧
          node'.stats.latest_block_root = (MerkleTree.new libs.sha256 result.transactions).root ∧
          node'.stats.blocks_in_ring_buffer = node'.ring_buffer.len) := by
  rw [processShred] at h
  obtain ⟨batch, hbatch, h⟩ := bind_eq_ok.mp h
  obtain ⟨recovered, hrecovered, h⟩ := bind_eq_ok.mp h
  cases recovered with
  | none =>
    cases h
    exact ⟨rfl, .inl ⟨rfl, rfl⟩⟩
  | some recovered =>
    obtain ⟨mid, hmid, h⟩ := bind_eq_ok.mp h
    obtain ⟨result, hresult, hmid⟩ := bind_eq_ok.mp hmid
    cases result with
    | none =>
      cases hmid
      cases h
      exact ⟨rfl, .inl ⟨rfl, rfl⟩⟩
    | some result =>
      obtain ⟨ring_buffer, hput, hmid⟩ := bind_eq_ok.mp hmid
      cases hmid
      cases h
      exact ⟨rfl, .inr ⟨batch, result, hput, rfl, rfl, rfl, rfl, rfl⟩⟩

theorem step_statsShow (h : StatsShow node)
    (hstep : processShred libs build io node shred = .ok node') : StatsShow node' := by
  obtain ⟨-, ⟨hring, hstats⟩ | ⟨batch, result, hput, hslot, htotal, htxs, hroot, hlen⟩⟩ :=
    processShred_stats hstep
  · refine ⟨?_, fun hzero => ?_, fun hpos => ?_, ?_⟩
    · rw [hring]
      exact h.capacity
    · rw [hstats] at hzero
      rw [hring, hstats]
      exact h.none hzero
    · rw [hstats] at hpos
      obtain ⟨data, hdata⟩ := h.some hpos
      refine ⟨data, ?_, ?_, ?_, ?_, ?_⟩
      · rw [hring, hstats]
        exact hdata.stored
      · rw [hstats]
        exact hdata.slot
      · rw [hstats]
        exact hdata.txs
      · rw [hstats]
        exact hdata.root
      · rw [hstats]
        exact hdata.tree
    · rw [hring, hstats]
      exact h.len
  · refine ⟨?_, fun hzero => ?_, fun _ => ⟨slotData libs batch result, ?_, ?_, ?_, ?_, ?_⟩, hlen⟩
    · rw [(put_eq_ok hput).2.1]
      exact h.capacity
    · rw [htotal] at hzero
      exact absurd hzero (Nat.succ_ne_zero _)
    · have hdata : (slotData libs batch result).slot = batch.slot := rfl
      rw [stored_put hput, hslot, hdata, if_pos rfl, if_pos rfl]
    · exact hslot.symm
    · exact htxs.symm
    · exact congrArg Option.some hroot.symm
    · exact congrArg Option.some hroot.symm

/-- The block that is shown is served as long as its slot is in the window. -/
theorem ShowsBlock.get_eq {data : SlotData} (hcap : node.ring_buffer.capacity ≠ 0)
    (h : ShowsBlock node data) :
    node.ring_buffer.get node.stats.latest_slot =
      .ok (if node.ring_buffer.head ≤ node.stats.latest_slot ∧
        node.stats.latest_slot < node.ring_buffer.tail then some data else none) := by
  have hinside : node.ring_buffer.head ≤ node.stats.latest_slot ∧
      node.stats.latest_slot < node.ring_buffer.tail ↔
        ¬ (node.stats.latest_slot < node.ring_buffer.head ∨
          node.stats.latest_slot ≥ node.ring_buffer.tail) := by
    rw [not_or, UInt64.not_lt, ge_iff_le, UInt64.not_le]
  rw [SlotRingBuffer.get_eq hcap, contents, h.stored, if_congr hinside rfl rfl, ite_not]

/-- **The statistics describe what is stored**, after any run.  The block that
they show is served as long as its slot is in the window of the ring buffer. -/
theorem run_statsShow (file_store : FlatFileStore) (disk : Disk) {deliveries : List Delivery}
    (h : run libs build (.start file_store disk {}) deliveries = .ok node) :
    StatsShow node ∧ ∀ data, ShowsBlock node data → node.ring_buffer.get node.stats.latest_slot =
      .ok (if node.ring_buffer.head ≤ node.stats.latest_slot ∧
        node.stats.latest_slot < node.ring_buffer.tail then some data else none) := by
  have hshow := foldlM_preserves StatsShow (fun _ _ _ hstep hshow => step_statsShow hshow hstep) h
    (statsShow_start file_store disk)
  exact ⟨hshow, fun data hdata => hdata.get_eq hshow.capacity⟩

/-- Every shred of slot 7. -/
def slotSevenDeliveries : List Delivery :=
  (smallSet 7).shreds.map fun shred =>
    (shred, { dataWrite := .written, metaWrite := .openFailed, listing := none })

theorem rows_slotSevenDeliveries :
    NUM_DATA_SHREDS ≤ ((smallSet 7).rows (slotSevenDeliveries.map Prod.fst)).card := by
  have hrows : Finset.range NUM_DATA_SHREDS ⊆
      (smallSet 7).rows (slotSevenDeliveries.map Prod.fst) := by
    intro row hrow
    have hlt : row < 64 := lt_trans (Finset.mem_range.mp hrow) (by decide)
    refine FecSet.mem_rows.mpr ⟨smallShred 7 row, ?_, by simp [smallSet, hlt]⟩
    simp only [slotSevenDeliveries, smallSet, List.map_map, List.mem_map, List.mem_range]
    exact ⟨row, hlt, rfl⟩
  calc NUM_DATA_SHREDS = (Finset.range NUM_DATA_SHREDS).card := (Finset.card_range _).symm
    _ ≤ _ := Finset.card_le_card hrows

theorem run_statsShow_sample : ∃ node,
    run sampleLibs .debug (.start .empty ∅ {}) slotSevenDeliveries = .ok node ∧
      ∃ data, ShowsBlock node data ∧
        node.ring_buffer.get node.stats.latest_slot = .ok (some data) := by
  have hsets : OneWindow 0 [smallSet 7] := by
    refine ⟨fun set hset other hother _ => ?_, fun set hset => ?_⟩
    · rw [List.mem_singleton.mp hset, List.mem_singleton.mp hother]
    · rw [List.mem_singleton.mp hset]
      exact ⟨by decide, by decide, by decide⟩
  have hfrom : ∀ delivery ∈ slotSevenDeliveries,
      ∃ set ∈ [smallSet 7], delivery.1 ∈ set.shreds := by
    intro delivery hdelivery
    obtain ⟨shred, hshred, rfl⟩ := List.mem_map.mp hdelivery
    exact ⟨_, List.mem_singleton_self _, hshred⟩
  obtain ⟨node, hrun, hstate⟩ := foldlM_invariant (RunState sampleLibs 0 [smallSet 7])
    (fun seen node delivery hfrom h => step_runState .debug hsets seen node delivery hfrom h)
    hfrom (runState_start 0 [smallSet 7] .empty ∅ {})
  rw [List.nil_append] at hstate
  obtain ⟨data, hdata, -⟩ :=
    (hstate.setState _ (List.mem_singleton_self _)).served rows_slotSevenDeliveries
  obtain ⟨hshow, hserved⟩ := run_statsShow .empty ∅ hrun
  have hpos : 0 < node.stats.total_blocks_recovered := by
    refine Nat.pos_of_ne_zero fun hzero => ?_
    -- a block is stored, so one was recovered
    have hstored := stored_of_contents hdata
    rw [(hshow.none hzero).2] at hstored
    cases hstored
  obtain ⟨data, hdata⟩ := hshow.some hpos
  refine ⟨node, hrun, data, hdata, (hserved data hdata).trans ?_⟩
  rw [← hserved data hdata, SlotRingBuffer.get_eq hshow.capacity,
    contents_of_inWindow hstate.window.inWindow, hdata.stored]

end Sg32
