/-
Whole runs of the pipeline over encoded erasure sets.

One set of 32 data and 32 code shreds for each slot, all slots in one window of
the ring buffer; the shreds arrive in any order, any number of times or never.

* `SetState` — what the node knows about one set, from the rows that arrived;
* `step_setState` — one shred moves its own set and no other;
* `run_served` — the blocks served are those of the sets of which 32 shreds
  arrived.
-/
import Sg32.ProcessShred

namespace Sg32

open Rust Bytes FecBatch SlotRingBuffer

/-- An erasure set of a slot: its payloads, encoded, and its 64 shreds. -/
structure FecSet where
  id : ErasureSetId
  data_shreds : List Bytes
  code_shreds : List Bytes
  result : DeshredResult
  shreds : List Shred
  length_data : data_shreds.length = NUM_DATA_SHREDS
  length_eq : ∃ w, ∀ d ∈ data_shreds, d.length = w
  encoded : encode data_shreds (generateCauchyMatrix NUM_DATA_SHREDS NUM_CODE_SHREDS)
    NUM_CODE_SHREDS = .ok code_shreds
  deshredded : deshredIntoTxs data_shreds = .ok (some result)
  length_shreds : shreds.length = NUM_DATA_SHREDS + NUM_CODE_SHREDS
  isRow : ∀ row shred, shreds[row]? = some shred → IsRow data_shreds code_shreds row shred
  hasId : ∀ shred ∈ shreds, shred.erasureSetId = id
  dims : ∀ shred ∈ shreds, batchDims shred = (NUM_DATA_SHREDS, NUM_CODE_SHREDS)

namespace FecSet

variable (set : FecSet)

/-- The rows of the set that are among the shreds. -/
def rows (delivered : List Shred) : Finset ℕ :=
  (Finset.range (NUM_DATA_SHREDS + NUM_CODE_SHREDS)).filter fun row =>
    ∃ shred ∈ delivered, set.shreds[row]? = some shred

/-- The block is the one of the set. -/
structure Serves (libs : Libs) (data : SlotData) : Prop where
  slot : data.slot = set.id.slot
  num_transactions : data.num_transactions = set.result.transactions.length
  merkle_root : data.merkle_root = some (MerkleTree.new libs.sha256 set.result.transactions).root
  merkle_tree : data.merkle_tree = some (MerkleTree.new libs.sha256 set.result.transactions)

variable {set} {libs : Libs} {delivered : List Shred} {row : ℕ} {shred : Shred}

theorem code_eq : ∃ w, (∀ d ∈ set.data_shreds, d.length = w) ∧
    set.code_shreds = parity set.data_shreds
      (generateCauchyMatrix set.data_shreds.length NUM_CODE_SHREDS) NUM_CODE_SHREDS w := by
  obtain ⟨w, hw⟩ := set.length_eq
  refine ⟨w, hw, ?_⟩
  rw [set.length_data]
  exact eq_parity_of_encode set.length_data (by decide) hw set.encoded

theorem length_code : set.code_shreds.length = NUM_CODE_SHREDS := by
  obtain ⟨w, -, hcode⟩ := set.code_eq
  rw [hcode, length_parity]

theorem row_lt (h : set.shreds[row]? = some shred) : row < NUM_DATA_SHREDS + NUM_CODE_SHREDS := by
  obtain ⟨hlt, -⟩ := List.getElem?_eq_some_iff.mp h
  rwa [set.length_shreds] at hlt

theorem mem_rows : row ∈ set.rows delivered ↔
    ∃ shred ∈ delivered, set.shreds[row]? = some shred := by
  rw [rows, Finset.mem_filter, Finset.mem_range, and_iff_right_iff_imp]
  rintro ⟨shred, -, hshred⟩
  exact row_lt hshred

/-- A row determines its shred, and a shred its row. -/
theorem row_unique {row' : ℕ} (h : set.shreds[row]? = some shred)
    (h' : set.shreds[row']? = some shred) : row = row' := by
  have hrow := set.isRow row shred h
  have hrow' := set.isRow row' shred h'
  cases shred with
  | merkleData common_header data_header merkle_root merkle_proof data =>
    have h1 := hrow.1
    have h2 := hrow'.1
    omega
  | merkleCode common_header coding_header merkle_root merkle_proof code =>
    exact hrow.1.trans hrow'.1.symm

theorem rows_append (h : set.shreds[row]? = some shred) :
    set.rows (delivered ++ [shred]) = insert row (set.rows delivered) := by
  ext row'
  rw [Finset.mem_insert, mem_rows, mem_rows]
  constructor
  · rintro ⟨shred', hmem, hshred'⟩
    rcases List.mem_append.mp hmem with hold | hnew
    · exact .inr ⟨shred', hold, hshred'⟩
    · obtain rfl := List.mem_singleton.mp hnew
      exact .inl (row_unique hshred' h)
  · rintro (rfl | ⟨shred', hmem, hshred'⟩)
    · exact ⟨shred, List.mem_append_right _ (List.mem_singleton_self shred), h⟩
    · exact ⟨shred', List.mem_append_left _ hmem, hshred'⟩

theorem rows_append_other (h : shred ∉ set.shreds) :
    set.rows (delivered ++ [shred]) = set.rows delivered := by
  ext row'
  rw [mem_rows, mem_rows]
  constructor
  · rintro ⟨shred', hmem, hshred'⟩
    rcases List.mem_append.mp hmem with hold | hnew
    · exact ⟨shred', hold, hshred'⟩
    · obtain rfl := List.mem_singleton.mp hnew
      exact absurd (List.mem_of_getElem? hshred') h
  · rintro ⟨shred', hmem, hshred'⟩
    exact ⟨shred', List.mem_append_left _ hmem, hshred'⟩

/-- The batch of the set: the one that is there or a new one. -/
def batchOf (set : FecSet) (batches : AList fun _ : ErasureSetId => FecBatch) : FecBatch :=
  (batches.lookup set.id).getD
    (FecBatch.new set.id.slot set.id.fec_set_index NUM_DATA_SHREDS NUM_CODE_SHREDS)

variable {batches : AList fun _ : ErasureSetId => FecBatch}

theorem openBatch_eq (hmem : shred ∈ set.shreds) :
    openBatch batches shred = set.batchOf batches := by
  rw [openBatch, batchOf, set.hasId shred hmem, set.dims shred hmem]

theorem batchOf_empty : set.batchOf ∅ =
    FecBatch.new set.id.slot set.id.fec_set_index NUM_DATA_SHREDS NUM_CODE_SHREDS := by
  rw [batchOf, AList.lookup_empty, Option.getD_none]

theorem batchOf_insert (batch : FecBatch) : set.batchOf (batches.insert set.id batch) = batch := by
  rw [batchOf, AList.lookup_insert, Option.getD_some]

theorem batchOf_erase : set.batchOf (batches.erase set.id) =
    FecBatch.new set.id.slot set.id.fec_set_index NUM_DATA_SHREDS NUM_CODE_SHREDS := by
  rw [batchOf, AList.lookup_erase, Option.getD_none]

/-! ### One set -/

/-- What the node has of the set once `rows` of it arrived: below 32 rows its
batch holds exactly these and nothing is served; from then on its block is
served, and its batch holds late shreds only. -/
structure SetState (set : FecSet) (libs : Libs) (rows : Finset ℕ) (node : Node) : Prop where
  batch : ∃ held, Holds set.data_shreds set.code_shreds held (set.batchOf node.batches) ∧
    (set.batchOf node.batches).slot = set.id.slot ∧ held.card < NUM_DATA_SHREDS ∧
    (∀ row ∈ held, row < NUM_DATA_SHREDS + NUM_CODE_SHREDS) ∧
    (rows.card < NUM_DATA_SHREDS → held = rows)
  absent : rows.card < NUM_DATA_SHREDS → node.ring_buffer.contents set.id.slot = none
  served : NUM_DATA_SHREDS ≤ rows.card →
    ∃ data, node.ring_buffer.contents set.id.slot = some data ∧ set.Serves libs data

theorem holds_new_batch : Holds set.data_shreds set.code_shreds ∅
    (FecBatch.new set.id.slot set.id.fec_set_index NUM_DATA_SHREDS NUM_CODE_SHREDS) := by
  have hnew := holds_new set.data_shreds set.code_shreds set.id.slot set.id.fec_set_index
  rwa [set.length_data, set.length_code] at hnew

theorem setState_start (file_store : FlatFileStore) (disk : Disk) (stats : PipelineStats) :
    SetState set libs ∅ (Node.start file_store disk stats) where
  batch := by
    rw [Node.start, batchOf_empty]
    exact ⟨∅, holds_new_batch, rfl, by decide, by simp, fun _ => rfl⟩
  absent _ := contents_new 500 set.id.slot
  served h := absurd h (by decide)

/-- The block of the set that a recovered batch of it publishes. -/
theorem serves_slotData {batch : FecBatch} (hslot : batch.slot = set.id.slot) :
    set.Serves libs (slotData libs batch set.result) where
  slot := hslot
  num_transactions := rfl
  merkle_root := rfl
  merkle_tree := rfl

theorem tryRecover_of_holds {held : Finset ℕ} {batch : FecBatch}
    (h : Holds set.data_shreds set.code_shreds held batch)
    (hrows : ∀ row ∈ held, row < NUM_DATA_SHREDS + NUM_CODE_SHREDS) :
    batch.tryRecover =
      .ok (if held.card < NUM_DATA_SHREDS then none else some set.data_shreds) := by
  obtain ⟨w, hw, hcode⟩ := set.code_eq
  rw [hcode] at h
  rw [← set.length_data] at hrows ⊢
  refine FecBatch.tryRecover_of_holds ?_ ?_ hw h hrows
  · rw [set.length_data]
    decide
  · rw [set.length_data]
    decide

/-- A row joins the batch of the set. -/
theorem exists_addShred (build : Build) {held : Finset ℕ}
    (hholds : Holds set.data_shreds set.code_shreds held (set.batchOf batches))
    (hslot : (set.batchOf batches).slot = set.id.slot)
    (hheld : ∀ row ∈ held, row < NUM_DATA_SHREDS + NUM_CODE_SHREDS)
    (hshred : set.shreds[row]? = some shred) :
    ∃ batch, addShred build (openBatch batches shred) shred = .ok batch ∧
      Holds set.data_shreds set.code_shreds (insert row held) batch ∧
      batch.slot = set.id.slot ∧
      (∀ r ∈ insert row held, r < NUM_DATA_SHREDS + NUM_CODE_SHREDS) ∧
      batch.tryRecover =
        .ok (if (insert row held).card < NUM_DATA_SHREDS then none else some set.data_shreds) := by
  obtain ⟨batch, hadd, hholds', hslot'⟩ :=
    holds_addShred build hholds (set.isRow row shred hshred)
  rw [← openBatch_eq (List.mem_of_getElem? hshred)] at hadd
  have hheld' : ∀ r ∈ insert row held, r < NUM_DATA_SHREDS + NUM_CODE_SHREDS :=
    (Finset.forall_mem_insert _ _ _).mpr ⟨row_lt hshred, hheld⟩
  exact ⟨batch, hadd, hholds', hslot'.trans hslot, hheld', tryRecover_of_holds hholds' hheld'⟩

/-! ### One shred -/

variable {first : ℕ} {node : Node} {rows : Finset ℕ}

/-- The slot of the set lies in the window of 500 slots from `first` on, below
`u64::MAX`. -/
structure InSlots (first : ℕ) (set : FecSet) : Prop where
  first_le : first ≤ set.id.slot.toNat
  lt_last : set.id.slot.toNat < first + 500
  lt_max : set.id.slot.toNat + 1 < 2 ^ 64

/-- The ring buffer serves the window. -/
structure ServesWindow (first : ℕ) (node : Node) : Prop where
  inWindow : InWindow first node.ring_buffer
  capacity : node.ring_buffer.capacity = 500

theorem ServesWindow.of_keepsStores {node' : Node} (h : ServesWindow first node)
    (hkeep : KeepsStores node node') : ServesWindow first node' where
  inWindow := by
    rw [hkeep.ring_buffer]
    exact h.inWindow
  capacity := by
    rw [hkeep.ring_buffer]
    exact h.capacity

/-- What a shred of the set leaves alone. -/
structure KeepsOthers (set : FecSet) (node node' : Node) : Prop where
  contents : ∀ slot, slot ≠ set.id.slot →
    node'.ring_buffer.contents slot = node.ring_buffer.contents slot
  batches : ∀ id, id ≠ set.id → node'.batches.lookup id = node.batches.lookup id

/-- The set, when its shred is only kept. -/
theorem setState_kept {batch : FecBatch} {held : Finset ℕ} {node' : Node}
    (h : SetState set libs rows node) (hkeep : KeepsStores node node')
    (hbatches : node'.batches = node.batches.insert set.id batch)
    (hholds : Holds set.data_shreds set.code_shreds held batch)
    (hslot : batch.slot = set.id.slot) (hcard : held.card < NUM_DATA_SHREDS)
    (hheld : ∀ row ∈ held, row < NUM_DATA_SHREDS + NUM_CODE_SHREDS) {rows' : Finset ℕ}
    (hsub : rows ⊆ rows') (hrows : rows.card < NUM_DATA_SHREDS → held = rows') :
    SetState set libs rows' node' where
  batch := by
    rw [hbatches, batchOf_insert]
    refine ⟨held, hholds, hslot, hcard, hheld, fun hfew => hrows ?_⟩
    exact lt_of_le_of_lt (Finset.card_le_card hsub) hfew
  absent hfew := by
    rw [hkeep.ring_buffer]
    exact h.absent (lt_of_le_of_lt (Finset.card_le_card hsub) hfew)
  served hmany := by
    rw [hkeep.ring_buffer]
    refine h.served (Nat.not_lt.mp fun hfew => ?_)
    rw [hrows hfew] at hcard
    omega

/-- The set, when its shred completed the batch: it is served, and late shreds
start over. -/
theorem setState_published {data : SlotData} {node' : Node}
    (hbatches : node'.batches = node.batches.erase set.id)
    (hcontents : node'.ring_buffer.contents set.id.slot = some data)
    (hserves : set.Serves libs data) (hmany : NUM_DATA_SHREDS ≤ rows.card) :
    SetState set libs rows node' where
  batch := by
    rw [hbatches, batchOf_erase]
    refine ⟨∅, holds_new_batch, rfl, by decide, by simp, fun hless => ?_⟩
    exact absurd hmany (Nat.not_le.mpr hless)
  absent hless := absurd hmany (Nat.not_le.mpr hless)
  served _ := ⟨data, hcontents, hserves⟩

/-- The shred that completes the batch of the set publishes its block. -/
theorem exists_published (libs : Libs) (io : FileIo) {build : Build} {batch : FecBatch}
    (hwindow : ServesWindow first node) (hslots : InSlots first set)
    (hshred : shred ∈ set.shreds)
    (hadd : addShred build (openBatch node.batches shred) shred = .ok batch)
    (hslot : batch.slot = set.id.slot)
    (hrecover : batch.tryRecover = .ok (some set.data_shreds)) :
    ∃ node', processShred libs build io node shred = .ok node' ∧ ServesWindow first node' ∧
      (∀ slot, node'.ring_buffer.contents slot =
        if slot = set.id.slot then some (slotData libs batch set.result)
        else node.ring_buffer.contents slot) ∧
      node'.batches = node.batches.erase set.id := by
  obtain ⟨node', hstep, hwindow', hcapacity, hcontents, hbatches⟩ :=
    processShred_inWindow libs io hadd hrecover set.deshredded hwindow.inWindow
      (by rw [hslot]; exact hslots.first_le)
      (by rw [hslot, hwindow.capacity]; exact hslots.lt_last)
      (by rw [hslot]; exact hslots.lt_max)
  rw [hslot] at hcontents
  rw [set.hasId shred hshred] at hbatches
  exact ⟨node', hstep, ⟨hwindow', hcapacity.trans hwindow.capacity⟩, hcontents, hbatches⟩

/-- **One shred of a set**: the pipeline accepts it, the state of its set
follows the rows that arrived, and nothing else changes. -/
theorem step_setState (build : Build) (io : FileIo) (h : SetState set libs rows node)
    (hwindow : ServesWindow first node) (hslots : InSlots first set)
    (hshred : set.shreds[row]? = some shred) :
    ∃ node', processShred libs build io node shred = .ok node' ∧
      SetState set libs (insert row rows) node' ∧ ServesWindow first node' ∧
      KeepsOthers set node node' := by
  obtain ⟨held, hholds, hslot, hcard, hheld, hrows⟩ := h.batch
  have hmem := List.mem_of_getElem? hshred
  obtain ⟨batch, hadd, hholds', hslot', hheld', hrecover⟩ :=
    exists_addShred build hholds hslot hheld hshred
  by_cases hfew : (insert row held).card < NUM_DATA_SHREDS
  · -- not enough shreds yet
    rw [if_pos hfew] at hrecover
    obtain ⟨node', hstep, hkeep, hbatches⟩ := processShred_kept libs io hadd hrecover
    rw [set.hasId shred hmem] at hbatches
    refine ⟨node', hstep, ?_, hwindow.of_keepsStores hkeep, ⟨fun slot _ => ?_, fun id hid => ?_⟩⟩
    · refine setState_kept h hkeep hbatches hholds' hslot' hfew hheld'
        (Finset.subset_insert row rows) fun hfew' => ?_
      rw [hrows hfew']
    · rw [hkeep.ring_buffer]
    · rw [hbatches, AList.lookup_insert_ne hid]
  · -- enough shreds: the block is published, possibly once more
    rw [if_neg hfew] at hrecover
    obtain ⟨node', hstep, hwindow', hcontents, hbatches⟩ :=
      exists_published libs io hwindow hslots hmem hadd hslot' hrecover
    have hmany : NUM_DATA_SHREDS ≤ (insert row rows).card := by
      by_cases hfew' : rows.card < NUM_DATA_SHREDS
      · rw [← hrows hfew']
        exact Nat.not_lt.mp hfew
      · exact le_trans (Nat.not_lt.mp hfew')
          (Finset.card_le_card (Finset.subset_insert row rows))
    refine ⟨node', hstep, ?_, hwindow', ⟨fun slot hne => ?_, fun id hid => ?_⟩⟩
    · refine setState_published hbatches ?_ (serves_slotData hslot') hmany
      rw [hcontents, if_pos rfl]
    · rw [hcontents, if_neg hne]
    · rw [hbatches, AList.lookup_erase_ne hid]

/-- A shred of one set leaves the state of every other set. -/
theorem setState_other {other : FecSet} {node' : Node} (hne : other.id.slot ≠ set.id.slot)
    (h : SetState other libs rows node) (hkeeps : KeepsOthers set node node') :
    SetState other libs rows node' := by
  have hid : other.id ≠ set.id := fun heq => hne (congrArg ErasureSetId.slot heq)
  have hbatch : other.batchOf node'.batches = other.batchOf node.batches := by
    rw [batchOf, batchOf, hkeeps.batches _ hid]
  refine ⟨?_, ?_, ?_⟩
  · rw [hbatch]
    exact h.batch
  · rw [hkeeps.contents _ hne]
    exact h.absent
  · rw [hkeeps.contents _ hne]
    exact h.served

end FecSet

/-! ### Runs -/

/-- One set for each slot, all slots in one window. -/
structure OneWindow (first : ℕ) (sets : List FecSet) : Prop where
  distinct : ∀ set ∈ sets, ∀ other ∈ sets, other.id.slot = set.id.slot → other = set
  inSlots : ∀ set ∈ sets, set.InSlots first

variable {libs : Libs} {first : ℕ} {sets : List FecSet}

/-- The state of all sets after some shreds were delivered. -/
structure RunState (libs : Libs) (first : ℕ) (sets : List FecSet) (seen : List Delivery)
    (node : Node) : Prop where
  window : FecSet.ServesWindow first node
  setState : ∀ set ∈ sets, FecSet.SetState set libs (set.rows (seen.map Prod.fst)) node
  absent : ∀ slot, (∀ set ∈ sets, set.id.slot ≠ slot) → node.ring_buffer.contents slot = none

theorem runState_start (first : ℕ) (sets : List FecSet) (file_store : FlatFileStore)
    (disk : Disk) (stats : PipelineStats) :
    RunState libs first sets [] (Node.start file_store disk stats) where
  window := ⟨inWindow_new (by decide) first, rfl⟩
  setState set _ := by
    have hrows : set.rows [] = ∅ := by
      refine Finset.filter_eq_empty_iff.mpr ?_
      intro row _
      rintro ⟨shred, hmem, -⟩
      exact absurd hmem List.not_mem_nil
    rw [List.map_nil, hrows]
    exact FecSet.setState_start file_store disk stats
  absent slot _ := contents_new 500 slot

theorem step_runState (build : Build) (hsets : OneWindow first sets) (seen : List Delivery)
    (node : Node) (delivery : Delivery) (hfrom : ∃ set ∈ sets, delivery.1 ∈ set.shreds)
    (h : RunState libs first sets seen node) :
    ∃ node', processShred libs build delivery.2 node delivery.1 = .ok node' ∧
      RunState libs first sets (seen ++ [delivery]) node' := by
  obtain ⟨set, hset, hmem⟩ := hfrom
  obtain ⟨row, hrow, hget⟩ := List.getElem_of_mem hmem
  have hshred : set.shreds[row]? = some delivery.1 := by rw [List.getElem?_eq_getElem hrow, hget]
  obtain ⟨node', hstep, hstate, hwindow, hkeeps⟩ := FecSet.step_setState build delivery.2
    (h.setState set hset) h.window (hsets.inSlots set hset) hshred
  refine ⟨node', hstep, hwindow, fun other hother => ?_, fun slot hslot => ?_⟩
  · rw [List.map_append, List.map_singleton]
    by_cases hsame : other.id.slot = set.id.slot
    · obtain rfl := hsets.distinct set hset other hother hsame
      rwa [FecSet.rows_append hshred]
    · have hnot : delivery.1 ∉ other.shreds := by
        intro hmem'
        have hid := (other.hasId _ hmem').symm.trans (set.hasId _ hmem)
        exact hsame (congrArg ErasureSetId.slot hid)
      rw [FecSet.rows_append_other hnot]
      exact FecSet.setState_other hsame (h.setState other hother) hkeeps
  · rw [hkeeps.contents slot (hslot set hset).symm]
    exact h.absent slot hslot

/-- **End to end**: after any deliveries, in whatever order and however often,
the slots with at least 32 delivered shreds are served with the block of their
set, and no other slot is present. -/
theorem run_served (libs : Libs) (build : Build) (hsets : OneWindow first sets)
    (file_store : FlatFileStore) (disk : Disk) (stats : PipelineStats)
    {deliveries : List Delivery}
    (hfrom : ∀ delivery ∈ deliveries, ∃ set ∈ sets, delivery.1 ∈ set.shreds) :
    ∃ node, run libs build (Node.start file_store disk stats) deliveries = .ok node ∧
      (∀ set ∈ sets, NUM_DATA_SHREDS ≤ (set.rows (deliveries.map Prod.fst)).card →
        ∃ data, node.ring_buffer.get set.id.slot = .ok (some data) ∧ set.Serves libs data) ∧
      ∀ slot, (∀ set ∈ sets, set.id.slot = slot →
          (set.rows (deliveries.map Prod.fst)).card < NUM_DATA_SHREDS) →
        node.ring_buffer.get slot = .ok none := by
  obtain ⟨node, hrun, hstate⟩ := foldlM_invariant (RunState libs first sets)
    (fun seen node delivery hfrom h => step_runState build hsets seen node delivery hfrom h)
    hfrom (runState_start first sets file_store disk stats)
  rw [List.nil_append] at hstate
  have hget := get_eq hstate.window.inWindow.capacity_ne_zero
  refine ⟨node, hrun, fun set hset hmany => ?_, fun slot hslot => ?_⟩
  · obtain ⟨data, hdata, hserves⟩ := (hstate.setState set hset).served hmany
    exact ⟨data, by rw [hget, hdata], hserves⟩
  · rw [hget]
    by_cases hin : ∃ set ∈ sets, set.id.slot = slot
    · obtain ⟨set, hset, rfl⟩ := hin
      rw [(hstate.setState set hset).absent (hslot set hset rfl)]
    · push Not at hin
      rw [hstate.absent slot hin]

/-! ### A sample run -/

/-- A legacy transaction without signatures, accounts and instructions. -/
def smallTx (fill : UInt8) : Bytes := [0, 1, 0, 0, 0] ++ List.replicate 32 fill ++ [0]

/-- The same with version 1, which no SDK knows. -/
def versionOneTx : Bytes := [0, 0x81, 1, 0, 0, 0] ++ List.replicate 32 4 ++ [0, 0]

def smallDigest : Digest :=
  #v[212, 12, 128, 157, 158, 21, 167, 48, 112, 67, 132, 177, 241, 242, 111, 21, 10, 138, 65,
    8, 204, 21, 227, 201, 211, 179, 202, 96, 181, 180, 60, 5]

def otherDigest : Digest :=
  #v[243, 155, 152, 82, 75, 252, 42, 103, 236, 183, 172, 153, 192, 124, 227, 183, 138, 109,
    151, 22, 109, 251, 151, 160, 64, 178, 187, 41, 179, 185, 249, 135]

def versionOneDigest : Digest :=
  #v[49, 41, 137, 240, 41, 118, 208, 209, 155, 32, 181, 10, 244, 88, 37, 6, 253, 4, 173, 39,
    106, 199, 124, 53, 0, 244, 175, 226, 25, 47, 176, 246]

/-- SHA-256 of the transactions above and of two pairs of digests. -/
def sampleDigests : List (Bytes × Digest) :=
  [(smallTx 4, smallDigest), (smallTx 5, otherDigest), (versionOneTx, versionOneDigest),
    (smallDigest.toList ++ versionOneDigest.toList,
      #v[233, 123, 191, 222, 229, 66, 235, 125, 196, 43, 209, 214, 148, 31, 62, 202, 118, 255,
        131, 191, 215, 45, 213, 65, 45, 125, 46, 69, 232, 188, 158, 204]),
    (versionOneDigest.toList ++ smallDigest.toList,
      #v[188, 13, 243, 196, 88, 89, 194, 227, 75, 8, 171, 215, 150, 54, 240, 175, 201, 165, 165,
        212, 211, 130, 159, 199, 198, 134, 139, 241, 76, 84, 122, 153])]

/-- The digests above, and some digest for everything else. -/
def sampleSha256 (bytes : Bytes) : Digest :=
  (sampleDigests.lookup bytes).getD (Vector.replicate 32 1)

def sampleLibs : Libs where
  sha256 := sampleSha256
  serializeEntries entries := some (le64 (.ofNat entries.length) ++ entries.flatMap fun entry =>
    le64 entry.num_hashes ++ entry.hash.toList ++ le64 (.ofNat entry.transactions.length) ++
      entry.transactions.flatMap fun tx => le64 (.ofNat tx.length) ++ tx)

def smallEntry (txs : List Bytes) : Entry where
  num_hashes := 12
  hash := Vector.replicate 32 8
  transactions := txs

/-- A stream of one entry. -/
def smallStream (txs : List Bytes) : Bytes :=
  le64 1 ++ le64 12 ++ List.replicate 32 8 ++ le64 (.ofNat txs.length) ++ txs.flatten

/-- A stream with two bytes after it, in 32 payloads of three bytes. -/
def smallData : List Bytes :=
  (List.range NUM_DATA_SHREDS).map fun i =>
    ((smallStream [smallTx 4] ++ [0, 0]).drop (3 * i)).take 3

def smallCode : List Bytes :=
  parity smallData (generateCauchyMatrix NUM_DATA_SHREDS NUM_CODE_SHREDS) NUM_CODE_SHREDS 3

/-- The shreds of a set with these payloads. -/
def smallShred (slot : UInt64) (row : ℕ) : Shred :=
  let common_header : ShredCommonHeader :=
    { signature := Vector.replicate 64 0
      shred_variant := 0
      slot := slot
      index := .ofNat row
      version := 1
      fec_set_index := 0 }
  if row < NUM_DATA_SHREDS then
    .merkleData common_header { parent_offset := 1, flags := 0, size := 91 }
      (Vector.replicate 32 0) [] (smallData.getD row [])
  else
    .merkleCode common_header
      { num_data_shreds := 32, num_coding_shreds := 32, position := .ofNat (row - 32) }
      (Vector.replicate 32 0) [] (smallCode.getD (row - 32) [])

theorem length_mem_smallData : ∀ d ∈ smallData, d.length = 3 := by decide +kernel

theorem isRow_smallShred (slot : UInt64) {row : ℕ} (hrow : row < 64) :
    IsRow smallData smallCode row (smallShred slot row) := by
  unfold smallShred
  by_cases hdata : row < NUM_DATA_SHREDS
  · have hlen : row < smallData.length := hdata
    rw [if_pos hdata]
    refine ⟨?_, by rw [List.getD_eq_getElem _ _ hlen, List.getElem?_eq_getElem hlen]⟩
    show (UInt32.ofNat row).toNat = 0 + row
    rw [UInt32.toNat_ofNat', Nat.mod_eq_of_lt (by omega), Nat.zero_add]
  · have hle : 32 ≤ row := Nat.not_lt.mp hdata
    have hposition : (UInt16.ofNat (row - 32)).toNat = row - 32 := by
      rw [UInt16.toNat_ofNat', Nat.mod_eq_of_lt (by omega)]
    have hlen : row - 32 < smallCode.length := by
      rw [smallCode, length_parity]
      show row - 32 < 32
      omega
    rw [if_neg hdata]
    refine ⟨?_, ?_⟩
    · show row = 32 + (UInt16.ofNat (row - 32)).toNat
      omega
    · show smallCode[(UInt16.ofNat (row - 32)).toNat]? = _
      rw [hposition, List.getD_eq_getElem _ _ hlen, List.getElem?_eq_getElem hlen]

def smallSet (slot : UInt64) : FecSet where
  id := { slot := slot, fec_set_index := 0 }
  data_shreds := smallData
  code_shreds := smallCode
  result := { entries := [smallEntry [smallTx 4]], transactions := [smallTx 4] }
  shreds := (List.range 64).map (smallShred slot)
  length_data := rfl
  length_eq := ⟨3, length_mem_smallData⟩
  encoded := encode_eq (by decide +kernel) length_mem_smallData (by simp) fun row hrow => by
    rw [length_of_mem_generateCauchyMatrix hrow]
    rfl
  deshredded := by decide +kernel
  length_shreds := rfl
  isRow row shred h := by
    have hrow : row < 64 := by
      have := (List.getElem?_eq_some_iff.mp h).choose
      simpa using this
    have hshred : smallShred slot row = shred := by simpa [hrow] using h
    subst hshred
    exact isRow_smallShred slot hrow
  hasId shred hmem := by
    obtain ⟨row, -, rfl⟩ := List.mem_map.mp hmem
    unfold smallShred
    split_ifs <;> rfl
  dims shred hmem := by
    obtain ⟨row, -, rfl⟩ := List.mem_map.mp hmem
    unfold smallShred
    split_ifs <;> rfl

/-- Every shred of slot 7, the last ones first, and one shred of slot 9. -/
def smallDeliveries : List Delivery :=
  ((smallSet 7).shreds.reverse ++ [smallShred 9 5]).map fun shred =>
    (shred, { dataWrite := .written, metaWrite := .openFailed, listing := none })

theorem run_served_sample : ∃ node,
    run sampleLibs .debug (Node.start .empty ∅ {}) smallDeliveries = .ok node ∧
      (∃ data, node.ring_buffer.get 7 = .ok (some data) ∧ (smallSet 7).Serves sampleLibs data) ∧
      node.ring_buffer.get 8 = .ok none := by
  have hmem : ∀ {set}, set ∈ [smallSet 7, smallSet 9] → set = smallSet 7 ∨ set = smallSet 9 := by
    intro set hset
    simpa using hset
  have hsets : OneWindow 0 [smallSet 7, smallSet 9] := by
    refine ⟨fun set hset other hother heq => ?_, fun set hset => ?_⟩
    · rcases hmem hset with rfl | rfl <;> rcases hmem hother with rfl | rfl
      · rfl
      · exact absurd heq (by decide)
      · exact absurd heq (by decide)
      · rfl
    · rcases hmem hset with rfl | rfl <;> exact ⟨by decide, by decide, by decide⟩
  have hfrom : ∀ delivery ∈ smallDeliveries,
      ∃ set ∈ [smallSet 7, smallSet 9], delivery.1 ∈ set.shreds := by
    intro delivery hdelivery
    obtain ⟨shred, hshred, rfl⟩ := List.mem_map.mp hdelivery
    rcases List.mem_append.mp hshred with hseven | hnine
    · exact ⟨smallSet 7, List.mem_cons_self, List.mem_reverse.mp hseven⟩
    · rw [List.mem_singleton.mp hnine]
      exact ⟨smallSet 9, by simp, List.mem_map.mpr ⟨5, by simp, rfl⟩⟩
  obtain ⟨node, hrun, hserved, habsent⟩ :=
    run_served sampleLibs .debug hsets .empty ∅ {} hfrom
  refine ⟨node, hrun, hserved (smallSet 7) List.mem_cons_self ?_, habsent 8 ?_⟩
  · -- every row of slot 7 was delivered
    have hrows : Finset.range NUM_DATA_SHREDS ⊆
        (smallSet 7).rows (smallDeliveries.map Prod.fst) := by
      intro row hrow
      have hlt : row < 64 := lt_trans (Finset.mem_range.mp hrow) (by decide)
      refine FecSet.mem_rows.mpr ⟨smallShred 7 row, ?_, by simp [smallSet, hlt]⟩
      simp only [smallDeliveries, smallSet, List.map_map, List.mem_map, List.mem_append,
        List.mem_reverse, List.mem_range]
      exact ⟨smallShred 7 row, .inl ⟨row, hlt, rfl⟩, rfl⟩
    calc NUM_DATA_SHREDS = (Finset.range NUM_DATA_SHREDS).card := (Finset.card_range _).symm
      _ ≤ _ := Finset.card_le_card hrows
  · intro set hset heq
    rcases hmem hset with rfl | rfl <;> exact absurd heq (by decide)

end Sg32
