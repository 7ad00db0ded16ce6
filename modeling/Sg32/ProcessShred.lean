/-
The shred pipeline (`process_shred` in `main.rs`, `stats.rs`).

A shred goes to the batch of its erasure set, which is created when it is the
first one.  As soon as the batch can be recovered, its data is cut into
transactions, the block is published in the ring buffer and on disk, and the
batch is removed.

* `processShred_cases` — everything that one shred can do;
* `processShred_eq_ok` — what it does to batches and stores.
-/
import Sg32.Deshredder
import Sg32.FlatFileStore
import Sg32.RingBuffer
import Sg32.ShredBatch

namespace Sg32

open Rust

structure FecBatchStats where
  slot : UInt64 := 0
  fec_set_index : UInt32 := 0
  data_shreds : ℕ := 0
  code_shreds : ℕ := 0
  num_data : ℕ := 0
  num_code : ℕ := 0
  deriving DecidableEq

/-- `total_blocks_recovered` counts recoveries; it does not reach the end of
its range. -/
structure PipelineStats where
  latest_slot : UInt64 := 0
  current_batch : FecBatchStats := {}
  total_blocks_recovered : ℕ := 0
  blocks_in_ring_buffer : ℕ := 0
  files_on_disk : ℕ := 0
  latest_block_txs : ℕ := 0
  latest_block_root : Digest := zeroDigest
  deriving DecidableEq

/-- The state that `process_shred` works on, with the data directory. -/
structure Node where
  batches : AList fun _ : ErasureSetId => FecBatch
  ring_buffer : SlotRingBuffer
  file_store : FlatFileStore
  disk : Disk
  stats : PipelineStats

/-- How the file system answers while one shred is processed: the two writes
of a save, and the entries that listing the data directory gives, if it can be
listed. -/
structure FileIo where
  dataWrite : WriteOutcome
  metaWrite : WriteOutcome
  listing : Option (FileName → Bool)

/-- Both writes succeed, and the directory cannot be listed. -/
def allWritten : FileIo where
  dataWrite := .written
  metaWrite := .written
  listing := none

/-- The libraries in use: the hash function, and `bincode::serialize` for a
list of entries. -/
structure Libs where
  sha256 : Bytes → Digest
  serializeEntries : List Entry → Option Bytes

/-- The batch of a shred, created when there is none. -/
def openBatch (batches : AList fun _ : ErasureSetId => FecBatch) (shred : Shred) : FecBatch :=
  (batches.lookup shred.erasureSetId).getD
    (FecBatch.new shred.erasureSetId.slot shred.erasureSetId.fec_set_index
      (batchDims shred).1 (batchDims shred).2)

/-- `current_batch` counts the shreds before this one is added. -/
def currentBatch (batch : FecBatch) (shred : Shred) : FecBatchStats where
  slot := shred.slot
  fec_set_index := shred.erasureSetId.fec_set_index
  data_shreds := FecBatch.countPresent batch.data_shreds
  code_shreds := FecBatch.countPresent batch.code_shreds
  num_data := batch.num_data
  num_code := batch.num_code

/-- The number of `.dat` files listed. -/
def filesOnDisk (disk : Disk) (listing : Option (FileName → Bool)) : ℕ :=
  match listing with
  | none => 0
  | some listed => disk.keys.countP fun path => listed path && path.extension = "dat"

variable (libs : Libs)

/-- The block of a recovered batch. -/
def slotData (batch : FecBatch) (result : DeshredResult) : SlotData :=
  let tree := MerkleTree.new libs.sha256 result.transactions
  { slot := batch.slot
    parent_slot := batch.parent_slot
    entries := (libs.serializeEntries result.entries).getD []
    num_transactions := result.transactions.length
    merkle_root := some tree.root
    merkle_tree := some tree }

/-- The node once `ring_buffer` has the block: the block is saved, whether or
not that succeeds, and the statistics are updated. -/
def published (io : FileIo) (node : Node) (batch : FecBatch) (recovered : List Bytes)
    (result : DeshredResult) (ring_buffer : SlotRingBuffer) : Node :=
  let concat := recovered.flatten
  let (file_store, disk, _) :=
    node.file_store.saveSlot node.disk batch.slot concat io.dataWrite io.metaWrite
  { node with
    ring_buffer := ring_buffer
    file_store := file_store
    disk := disk
    stats := { node.stats with
      total_blocks_recovered := node.stats.total_blocks_recovered + 1
      latest_slot := batch.slot
      latest_block_txs := result.transactions.length
      latest_block_root := (MerkleTree.new libs.sha256 result.transactions).root
      blocks_in_ring_buffer := ring_buffer.len
      files_on_disk := filesOnDisk disk io.listing } }

/-- Publish what a batch recovered, when it can be cut into transactions. -/
def publish (build : Build) (io : FileIo) (node : Node) (batch : FecBatch)
    (recovered : List Bytes) : Checked Node := do
  let result ← deshredIntoTxs recovered
  match result with
  | none => pure node
  | some result => do
    let ring_buffer ← node.ring_buffer.put build (slotData libs batch result)
    pure (published libs io node batch recovered result ring_buffer)

def processShred (build : Build) (io : FileIo) (node : Node) (shred : Shred) :
    Checked Node := do
  let batch := openBatch node.batches shred
  let node := { node with
    stats := { node.stats with current_batch := currentBatch batch shred } }
  let batch ← batch.addShred build shred
  let recovered ← batch.tryRecover
  match recovered with
  | none => pure { node with batches := node.batches.insert shred.erasureSetId batch }
  | some recovered => do
    let node ← publish libs build io node batch recovered
    -- the batch goes whether or not its data could be cut into transactions
    pure { node with batches := node.batches.erase shred.erasureSetId }

/-! ### What one shred does -/

variable {libs} {build : Build} {io : FileIo} {node node' : Node} {batch : FecBatch}
  {recovered : List Bytes} {shred : Shred}

/-- The stores after a publication. -/
structure Publishes (libs : Libs) (build : Build) (io : FileIo) (node : Node) (batch : FecBatch)
    (recovered : List Bytes) (result : DeshredResult) (node' : Node) : Prop where
  deshred : deshredIntoTxs recovered = .ok (some result)
  put : node.ring_buffer.put build (slotData libs batch result) = .ok node'.ring_buffer
  file_store : node'.file_store = (node.file_store.saveSlot node.disk batch.slot recovered.flatten
    io.dataWrite io.metaWrite).1
  disk : node'.disk = (node.file_store.saveSlot node.disk batch.slot recovered.flatten
    io.dataWrite io.metaWrite).2.1

/-- Nothing is published. -/
structure KeepsStores (node node' : Node) : Prop where
  ring_buffer : node'.ring_buffer = node.ring_buffer
  file_store : node'.file_store = node.file_store
  disk : node'.disk = node.disk

/-- The statistics count a recovery. -/
structure CountsRecovery (node : Node) (batch : FecBatch) (node' : Node) : Prop where
  latest_slot : node'.stats.latest_slot = batch.slot
  total_blocks_recovered :
    node'.stats.total_blocks_recovered = node.stats.total_blocks_recovered + 1

/-- The statistics count no recovery. -/
structure KeepsCounts (node node' : Node) : Prop where
  latest_slot : node'.stats.latest_slot = node.stats.latest_slot
  total_blocks_recovered :
    node'.stats.total_blocks_recovered = node.stats.total_blocks_recovered

theorem publish_cases (h : publish libs build io node batch recovered = .ok node') :
    node'.batches = node.batches ∧
      ((deshredIntoTxs recovered = .ok none ∧ KeepsStores node node' ∧ KeepsCounts node node') ∨
        ∃ result, Publishes libs build io node batch recovered result node' ∧
          CountsRecovery node batch node') := by
  rw [publish] at h
  obtain ⟨result, hresult, h⟩ := bind_eq_ok.mp h
  cases result with
  | none =>
    cases h
    exact ⟨rfl, .inl ⟨hresult, ⟨rfl, rfl, rfl⟩, ⟨rfl, rfl⟩⟩⟩
  | some result =>
    obtain ⟨ring_buffer, hput, h⟩ := bind_eq_ok.mp h
    cases h
    exact ⟨rfl, .inr ⟨result, ⟨hresult, hput, rfl, rfl⟩, ⟨rfl, rfl⟩⟩⟩

/-- **What one shred does, and counts**: it joins its batch, which stays or is
recovered and removed; a recovered batch is published and counted when it can
be cut into transactions. -/
theorem processShred_cases (h : processShred libs build io node shred = .ok node') :
    ∃ batch, (openBatch node.batches shred).addShred build shred = .ok batch ∧
      ((batch.tryRecover = .ok none ∧ KeepsStores node node' ∧ KeepsCounts node node' ∧
          node'.batches = node.batches.insert shred.erasureSetId batch) ∨
        ∃ recovered, batch.tryRecover = .ok (some recovered) ∧
          node'.batches = node.batches.erase shred.erasureSetId ∧
          ((deshredIntoTxs recovered = .ok none ∧ KeepsStores node node' ∧
              KeepsCounts node node') ∨
            ∃ result, Publishes libs build io node batch recovered result node' ∧
              CountsRecovery node batch node')) := by
  rw [processShred] at h
  obtain ⟨batch, hbatch, h⟩ := bind_eq_ok.mp h
  obtain ⟨recovered, hrecovered, h⟩ := bind_eq_ok.mp h
  refine ⟨batch, hbatch, ?_⟩
  -- the batch stays, or it goes
  cases recovered with
  | none =>
    cases h
    exact .inl ⟨hrecovered, ⟨rfl, rfl, rfl⟩, ⟨rfl, rfl⟩, rfl⟩
  | some recovered =>
    obtain ⟨mid, hmid, h⟩ := bind_eq_ok.mp h
    obtain ⟨hbatches, hcases⟩ := publish_cases hmid
    cases h
    refine .inr ⟨recovered, hrecovered, ?_, ?_⟩
    · rw [hbatches]
    · rcases hcases with ⟨hnone, hkeep, hcounts⟩ | ⟨result, hpublish, hcounts⟩
      · exact .inl ⟨hnone, ⟨hkeep.ring_buffer, hkeep.file_store, hkeep.disk⟩,
          ⟨hcounts.latest_slot, hcounts.total_blocks_recovered⟩⟩
      · exact .inr ⟨result, ⟨hpublish.deshred, hpublish.put, hpublish.file_store, hpublish.disk⟩,
          ⟨hcounts.latest_slot, hcounts.total_blocks_recovered⟩⟩

/-- **What one shred does** to batches and stores. -/
theorem processShred_eq_ok (h : processShred libs build io node shred = .ok node') :
    ∃ batch, (openBatch node.batches shred).addShred build shred = .ok batch ∧
      ((batch.tryRecover = .ok none ∧ KeepsStores node node' ∧
          node'.batches = node.batches.insert shred.erasureSetId batch) ∨
        ∃ recovered, batch.tryRecover = .ok (some recovered) ∧
          node'.batches = node.batches.erase shred.erasureSetId ∧
          ((deshredIntoTxs recovered = .ok none ∧ KeepsStores node node') ∨
            ∃ result, Publishes libs build io node batch recovered result node')) := by
  obtain ⟨batch, hbatch, hcases⟩ := processShred_cases h
  refine ⟨batch, hbatch, ?_⟩
  rcases hcases with ⟨hnone, hkeep, -, hbatches⟩ | ⟨recovered, hsome, hbatches, hcases⟩
  · exact .inl ⟨hnone, hkeep, hbatches⟩
  · refine .inr ⟨recovered, hsome, hbatches, ?_⟩
    rcases hcases with ⟨hdeshred, hkeep, -⟩ | ⟨result, hpublish, -⟩
    · exact .inl ⟨hdeshred, hkeep⟩
    · exact .inr ⟨result, hpublish⟩

/-- A shred that completes a batch publishes its block. -/
theorem publishes_of_recovers
    (hadd : (openBatch node.batches shred).addShred build shred = .ok batch)
    (hrecovers : batch.tryRecover = .ok (some recovered)) {result : DeshredResult}
    (hdeshred : deshredIntoTxs recovered = .ok (some result))
    (h : processShred libs build io node shred = .ok node') :
    Publishes libs build io node batch recovered result node' := by
  obtain ⟨batch', hadd', hcases⟩ := processShred_eq_ok h
  cases hadd.symm.trans hadd'
  rcases hcases with ⟨hnone, -⟩ | ⟨recovered', hsome, -, hcases⟩
  · cases hrecovers.symm.trans hnone
  · cases hrecovers.symm.trans hsome
    rcases hcases with ⟨hfails, -⟩ | ⟨result', hpub⟩
    · cases hdeshred.symm.trans hfails
    · cases hdeshred.symm.trans hpub.deshred
      exact hpub

theorem processShred_kept (libs : Libs) (io : FileIo)
    (hadd : (openBatch node.batches shred).addShred build shred = .ok batch)
    (hnone : batch.tryRecover = .ok none) :
    ∃ node', processShred libs build io node shred = .ok node' ∧ KeepsStores node node' ∧
      node'.batches = node.batches.insert shred.erasureSetId batch := by
  rw [processShred, hadd, ok_bind, hnone, ok_bind]
  exact ⟨_, rfl, ⟨rfl, rfl, rfl⟩, rfl⟩

theorem processShred_dropped (libs : Libs) (io : FileIo)
    (hadd : (openBatch node.batches shred).addShred build shred = .ok batch)
    (hsome : batch.tryRecover = .ok (some recovered))
    (hdeshred : deshredIntoTxs recovered = .ok none) :
    ∃ node', processShred libs build io node shred = .ok node' ∧ KeepsStores node node' ∧
      node'.batches = node.batches.erase shred.erasureSetId := by
  rw [processShred, hadd, ok_bind, hsome, ok_bind]
  simp only [publish, hdeshred, ok_bind]
  exact ⟨_, rfl, ⟨rfl, rfl, rfl⟩, rfl⟩

theorem processShred_published (libs : Libs) (io : FileIo) {result : DeshredResult}
    {ring_buffer : SlotRingBuffer}
    (hadd : (openBatch node.batches shred).addShred build shred = .ok batch)
    (hsome : batch.tryRecover = .ok (some recovered))
    (hdeshred : deshredIntoTxs recovered = .ok (some result))
    (hput : node.ring_buffer.put build (slotData libs batch result) = .ok ring_buffer) :
    ∃ node', processShred libs build io node shred = .ok node' ∧
      node'.ring_buffer = ring_buffer ∧
      node'.batches = node.batches.erase shred.erasureSetId := by
  rw [processShred, hadd, ok_bind, hsome, ok_bind]
  simp only [publish, hdeshred, ok_bind, hput]
  exact ⟨_, rfl, rfl, rfl⟩

/-- **A publication inside one window** of slots adds its block to those served. -/
theorem processShred_inWindow (libs : Libs) (io : FileIo) {result : DeshredResult} {first : ℕ}
    (hadd : (openBatch node.batches shred).addShred build shred = .ok batch)
    (hsome : batch.tryRecover = .ok (some recovered))
    (hdeshred : deshredIntoTxs recovered = .ok (some result))
    (hwindow : SlotRingBuffer.InWindow first node.ring_buffer)
    (hfirst : first ≤ batch.slot.toNat)
    (hlast : batch.slot.toNat < first + node.ring_buffer.capacity.toNat)
    (hmax : batch.slot.toNat + 1 < 2 ^ 64) :
    ∃ node', processShred libs build io node shred = .ok node' ∧
      SlotRingBuffer.InWindow first node'.ring_buffer ∧
      node'.ring_buffer.capacity = node.ring_buffer.capacity ∧
      (∀ slot, node'.ring_buffer.contents slot =
        if slot = batch.slot then some (slotData libs batch result)
        else node.ring_buffer.contents slot) ∧
      node'.batches = node.batches.erase shred.erasureSetId := by
  obtain ⟨ring_buffer, hput, hwindow', hcapacity, hcontents⟩ :=
    SlotRingBuffer.contents_put build (slotData libs batch result) hwindow hfirst hlast hmax
  obtain ⟨node', hprocess, rfl, hbatches⟩ :=
    processShred_published libs io hadd hsome hdeshred hput
  exact ⟨node', hprocess, hwindow', hcapacity, hcontents, hbatches⟩

/-! ### Runs -/

/-- A node that has received nothing: no batches and an empty ring buffer. -/
def Node.start (file_store : FlatFileStore) (disk : Disk) (stats : PipelineStats) : Node where
  batches := ∅
  ring_buffer := SlotRingBuffer.new 500
  file_store := file_store
  disk := disk
  stats := stats

/-- The shreds of a run in the order in which they are processed, each with
the answers of the file system. -/
abbrev Delivery := Shred × FileIo

def run (libs : Libs) (build : Build) (node : Node) (deliveries : List Delivery) :
    Checked Node :=
  deliveries.foldlM (fun node d => processShred libs build d.2 node d.1) node

end Sg32
