/-
Answers from the ring buffer and from the file store.

A published block is served from the ring buffer while that has the slot, and
afterwards from the file that was saved with it.  The two agree on the
transactions and the tree, but the ring buffer refuses a block without
transactions, and only the ring buffer knows the parent slot.

* `later_holdsBlock` — what later states of the node have of a published block;
* `loadSlotData_hot`, `loadSlotData_cold` — what is loaded on the two ways;
* `sameAnswers_iff` — when the server answers the same on both.
-/
import Sg32.Publication

namespace Sg32

open Rust SlotRingBuffer

variable {Tx : Type} {rpc : RpcLibs Tx} {libs : Libs} {build : Build} {node after later : Node}
  {delivery : Delivery} {batch : FecBatch} {recovered : List Bytes} {result : DeshredResult}
  {slot : UInt64}

/-! ### A published block -/

/-- A step that recovers a batch, publishes its block and saves it. -/
structure PublishStep (libs : Libs) (build : Build) (node : Node) (delivery : Delivery)
    (batch : FecBatch) (recovered : List Bytes) (result : DeshredResult) (after : Node) : Prop where
  joins : (openBatch node.batches delivery.1).addShred build delivery.1 = .ok batch
  recovers : batch.tryRecover = .ok (some recovered)
  deshred : deshredIntoTxs recovered = .ok (some result)
  step : processShred libs build delivery.2 node delivery.1 = .ok after
  dataWritten : delivery.2.dataWrite = .written
  metaWritten : delivery.2.metaWrite = .written

/-- A later state of the node, before the slot is published again. -/
def LaterWithout (libs : Libs) (build : Build) (node : Node) (slot : UInt64) (later : Node) :
    Prop :=
  ∃ (more : List Delivery) (published : List Publication),
    more.foldlM (record libs build) (node, []) = .ok (later, published) ∧
      ∀ p ∈ published, p.slot ≠ slot

/-- The file store has the block, and the ring buffer has it or nothing for
the slot. -/
structure HoldsBlock (slot : UInt64) (data : SlotData) (raw : Bytes) (node : Node) : Prop where
  capacity_ne_zero : node.ring_buffer.capacity ≠ 0
  wellNamed : node.file_store.WellNamed
  stored : ∀ data', node.ring_buffer.stored slot = some data' → data' = data
  load : node.file_store.loadSlot node.disk slot = some raw

/-- Right after its publication the block is in both stores. -/
theorem holdsBlock_of_step
    (h : PublishStep libs build node delivery batch recovered result after)
    (hwell : node.file_store.WellNamed) :
    HoldsBlock batch.slot (slotData libs batch result) recovered.flatten after := by
  have hpub := publishes_of_recovers h.joins h.recovers h.deshred h.step
  obtain ⟨hcap, hcapacity, -⟩ := put_eq_ok hpub.put
  have hsave : (node.file_store.saveSlot node.disk batch.slot recovered.flatten
      delivery.2.dataWrite delivery.2.metaWrite).2.2 = true := by
    rw [h.dataWritten, h.metaWritten]
    rfl
  have hload := FlatFileStore.loadSlot_saveSlot hwell hsave batch.slot
  rw [← hpub.file_store, ← hpub.disk, if_pos rfl] at hload
  refine ⟨hcapacity ▸ hcap, ?_, ?_, hload⟩
  · rw [hpub.file_store]
    exact FlatFileStore.wellNamed_saveSlot hwell
  · -- the position of the slot holds the new block and no other
    intro data' hdata'
    rcases stored_put_cases hpub.put hdata' with ⟨-, rfl⟩ | ⟨hne, -⟩
    · rfl
    · exact absurd rfl hne

/-- A step that does not publish the slot keeps its block in the file store
and puts no other one in the ring buffer. -/
theorem step_holdsBlock {data : SlotData} {raw : Bytes} {published published' : List Publication}
    (hstep : record libs build (node, published) delivery = .ok (after, published'))
    (hother : ∀ p ∈ published', p.slot ≠ slot) (h : HoldsBlock slot data raw node) :
    HoldsBlock slot data raw after := by
  rcases record_cases hstep with ⟨hkeep, -⟩ | ⟨batch, recovered, result, hpub, rfl⟩
  · refine ⟨hkeep.ring_buffer ▸ h.capacity_ne_zero, hkeep.file_store ▸ h.wellNamed,
      hkeep.ring_buffer ▸ h.stored, ?_⟩
    rw [hkeep.file_store, hkeep.disk]
    exact h.load
  · -- the block of another slot
    have hne : batch.slot ≠ slot := hother _ List.mem_cons_self
    obtain ⟨-, hcapacity, -⟩ := put_eq_ok hpub.put
    refine ⟨hcapacity ▸ h.capacity_ne_zero, ?_, ?_, ?_⟩
    · rw [hpub.file_store]
      exact FlatFileStore.wellNamed_saveSlot h.wellNamed
    · intro data' hdata'
      rcases stored_put_cases hpub.put hdata' with ⟨hslot, -⟩ | ⟨-, hold⟩
      · exact absurd hslot.symm hne
      · exact h.stored data' hold
    · rw [hpub.file_store, hpub.disk,
        FlatFileStore.loadSlot_saveSlot_ne h.wellNamed (Ne.symm hne)]
      exact h.load

theorem later_holdsBlock {data : SlotData} {raw : Bytes}
    (hlater : LaterWithout libs build node slot later) (h : HoldsBlock slot data raw node) :
    HoldsBlock slot data raw later := by
  obtain ⟨more, published, hrun, hother⟩ := hlater
  -- induction on the deliveries after the first state, the last one split off
  induction more using List.reverseRecOn generalizing later published with
  | nil =>
    cases hrun
    exact h
  | append_singleton more delivery ih =>
    obtain ⟨⟨mid, published₀⟩, hmid, hstep⟩ := foldlM_concat_eq_ok.mp hrun
    refine step_holdsBlock hstep hother (ih published₀ hmid fun p hp => hother p ?_)
    rcases record_published hstep with rfl | ⟨q, rfl⟩
    · exact hp
    · exact List.mem_cons_of_mem q hp

/-- What the ring buffer has for the slot is the block. -/
theorem get_of_holdsBlock {data : SlotData} {raw : Bytes} (h : HoldsBlock slot data raw node)
    (hkept : ∃ data', node.ring_buffer.get slot = .ok (some data')) :
    node.ring_buffer.get slot = .ok (some data) := by
  obtain ⟨data', hdata'⟩ := hkept
  have hcontents := hdata'
  rw [get_eq h.capacity_ne_zero] at hcontents
  rw [hdata', h.stored data' (stored_of_contents (Except.ok.inj hcontents))]

/-- In every state that a run reaches, the index names every block by its
slot. -/
theorem run_wellNamed {file_store : FlatFileStore} {disk : Disk} {stats : PipelineStats}
    {deliveries : List Delivery} (hwell : file_store.WellNamed)
    (hrun : run libs build (Node.start file_store disk stats) deliveries = .ok node) :
    node.file_store.WellNamed := by
  refine foldlM_preserves (fun node : Node => node.file_store.WellNamed)
    (fun node delivery node' hstep h => ?_) hrun hwell
  obtain ⟨batch, -, hcases⟩ := processShred_eq_ok hstep
  rcases hcases with ⟨-, hkeep, -⟩ | ⟨recovered, -, -, ⟨-, hkeep⟩ | ⟨result, hpub⟩⟩
  · rw [hkeep.file_store]
    exact h
  · rw [hkeep.file_store]
    exact h
  · rw [hpub.file_store]
    exact FlatFileStore.wellNamed_saveSlot h

/-! ### Loading it -/

section Loading

variable {hot cold : Node}
  (hdeshred : deshredIntoTxs recovered = .ok (some result))

/-- The transactions that the SDK parses, and the tree over all of them. -/
def blockOf (rpc : RpcLibs Tx) (result : DeshredResult) : List Tx × MerkleTree :=
  (parseTransactions rpc result.transactions, MerkleTree.new rpc.sha256 result.transactions)

include hdeshred

/-- From the ring buffer, unless the block has no transactions. -/
theorem loadSlotData_hot (hround : ReadsBack rpc result.entries)
    (hget : hot.ring_buffer.get slot = .ok (some (slotData rpc.toLibs batch result))) :
    loadSlotData rpc hot slot =
      .ok (if result.transactions = [] then none else some (blockOf rpc result)) := by
  by_cases hne : result.transactions = []
  · have hcount : (slotData rpc.toLibs batch result).num_transactions = 0 := by
      show result.transactions.length = 0
      rw [hne, List.length_nil]
    simp only [loadSlotData, hget, ok_bind, loadFromRing, if_pos hcount, if_pos hne]
    rfl
  · rw [if_neg hne]
    exact loaded_of_hasBlock hround (.ring recovered batch hdeshred hget) hne

/-- From the file store, always. -/
theorem loadSlotData_cold (hget : cold.ring_buffer.get slot = .ok none)
    (hload : cold.file_store.loadSlot cold.disk slot = some recovered.flatten) :
    loadSlotData rpc cold slot = .ok (some (blockOf rpc result)) := by
  rw [loadSlotData, hget, ok_bind, hload]
  simp only [loadFromFile, deshred_flatten, hdeshred, ok_bind]
  rfl

end Loading

/-! ### Answers -/

/-- Two nodes load the same for a slot, and answer requests for its block in
the same way. -/
structure SameAnswers (rpc : RpcLibs Tx) (hot cold : Node) (slot : UInt64) : Prop where
  loaded : loadSlotData rpc hot slot = loadSlotData rpc cold slot
  getBlock : ∀ params id, (paramU64 params 0).getD 0 = slot →
    handleGetBlock rpc hot params id = handleGetBlock rpc cold params id
  getBlockWithProofs : ∀ params id, (paramU64 params 0).getD 0 = slot →
    handleGetBlockWithProofs rpc hot params id = handleGetBlockWithProofs rpc cold params id

theorem sameAnswers_of_parent {hot cold : Node}
    (hloaded : loadSlotData rpc hot slot = loadSlotData rpc cold slot)
    (hparent : parentSlot hot slot = parentSlot cold slot) : SameAnswers rpc hot cold slot where
  loaded := hloaded
  getBlock params id hslot := by
    simp only [handleGetBlock, withSlot, hslot, hloaded, hparent]
  getBlockWithProofs params id hslot := by
    simp only [handleGetBlockWithProofs, getBlockWithProofs, withSlot, hslot, hloaded, hparent]

/-- The parameters that ask for a slot. -/
def paramsFor (slot : UInt64) : Option Json := some (.arr [.u64 slot])

/-- The parent slot that `getBlock` reports. -/
theorem getBlock_parentSlot {hot : Node} {block : List Tx × MerkleTree} {parent : UInt64}
    (hloaded : loadSlotData rpc hot slot = .ok (some block))
    (hparent : parentSlot hot slot = .ok parent) (id : UInt64) :
    ∃ response json, handleGetBlock rpc hot (paramsFor slot) id = .ok response ∧
      response.result = some json ∧ json.get "parentSlot" = some (.u64 parent) := by
  have hslot : (paramU64 (paramsFor slot) 0).getD 0 = slot := rfl
  rw [handleGetBlock, hslot, withSlot_of_loaded hloaded, hparent]
  exact ⟨_, _, rfl, rfl, rfl⟩

theorem parentSlot_hot {hot : Node} {data : SlotData}
    (hget : hot.ring_buffer.get slot = .ok (some data)) :
    parentSlot hot slot = .ok data.parent_slot := by
  rw [parentSlot, hget, ok_bind]
  rfl

theorem parentSlot_cold {cold : Node} (hget : cold.ring_buffer.get slot = .ok none) :
    parentSlot cold slot = .ok (FecBatch.saturatingSub slot 1) := by
  rw [parentSlot, hget, ok_bind]
  rfl

/-- **When hot and cold reads agree**: the block has a transaction, and its
parent is the slot before. -/
theorem sameAnswers_iff {file_store : FlatFileStore} {disk : Disk} {stats : PipelineStats}
    {deliveries : List Delivery} (hwell : file_store.WellNamed)
    (hrun : run rpc.toLibs build (Node.start file_store disk stats) deliveries = .ok node)
    (hstep : PublishStep rpc.toLibs build node delivery batch recovered result after)
    (hround : ReadsBack rpc result.entries) {hot cold : Node}
    (hhot : LaterWithout rpc.toLibs build after batch.slot hot)
    (hkept : ∃ data, hot.ring_buffer.get batch.slot = .ok (some data))
    (hcold : LaterWithout rpc.toLibs build after batch.slot cold)
    (hevicted : cold.ring_buffer.get batch.slot = .ok none) :
    SameAnswers rpc hot cold batch.slot ↔
      result.transactions ≠ [] ∧ batch.parent_slot = FecBatch.saturatingSub batch.slot 1 := by
  have hblock := holdsBlock_of_step hstep (run_wellNamed hwell hrun)
  have hget := get_of_holdsBlock (later_holdsBlock hhot hblock) hkept
  have hloadHot := loadSlotData_hot hstep.deshred hround hget
  have hloadCold : loadSlotData rpc cold batch.slot = .ok (some (blockOf rpc result)) :=
    loadSlotData_cold hstep.deshred hevicted (later_holdsBlock hcold hblock).load
  constructor
  · intro hsame
    have hloaded := hsame.loaded
    rw [hloadHot, hloadCold] at hloaded
    by_cases hne : result.transactions = []
    · rw [if_pos hne] at hloaded
      cases hloaded
    rw [if_neg hne] at hloadHot
    refine ⟨hne, ?_⟩
    obtain ⟨response, json, hresponse, hjson, hfield⟩ :=
      getBlock_parentSlot hloadHot (parentSlot_hot hget) 0
    obtain ⟨response', json', hresponse', hjson', hfield'⟩ :=
      getBlock_parentSlot hloadCold (parentSlot_cold hevicted) 0
    -- one response, so one parent slot
    rw [hsame.getBlock (paramsFor batch.slot) 0 rfl] at hresponse
    cases hresponse.symm.trans hresponse'
    cases hjson.symm.trans hjson'
    have hnumber := hfield.symm.trans hfield'
    simp only [Option.some.injEq, Json.u64, Json.number.injEq, JsonNumber.posInt.injEq] at hnumber
    exact hnumber
  · rintro ⟨hne, hparent⟩
    rw [if_neg hne] at hloadHot
    refine sameAnswers_of_parent (hloadHot.trans hloadCold.symm) ?_
    rw [parentSlot_hot hget, parentSlot_cold hevicted, ← hparent]
    rfl

/-! ### A block of slot 7 -/

/-- The data shred that completes the block. -/
def lastShred (payload : Bytes) : Delivery := (firstData 7 0 payload, allWritten)

/-- What is read off a run that evicts a block. -/
structure Eviction where
  recovered : Option (List Bytes)
  slot : UInt64
  parent_slot : UInt64
  later : List UInt64
  hot : Bool
  cold : Bool
  deriving DecidableEq

/-- A run that publishes a block in slot 7 and then one in slot 507. -/
def evictedRun (rpc : RpcLibs Bytes) (payload : Bytes) : Checked Eviction := do
  let node ← run rpc.toLibs .debug (Node.start .empty ∅ {}) [(namesOne 7 0, allWritten)]
  let batch ← (openBatch node.batches (lastShred payload).1).addShred .debug (lastShred payload).1
  let recovered ← batch.tryRecover
  let after ← processShred rpc.toLibs .debug allWritten node (lastShred payload).1
  let (cold, published) ← (oneShred 507 0 (smallStream [smallTx 4])).foldlM
    (record rpc.toLibs .debug) (after, [])
  let hotData ← after.ring_buffer.get 7
  let coldData ← cold.ring_buffer.get 7
  pure {
    recovered := recovered
    slot := batch.slot
    parent_slot := batch.parent_slot
    later := published.map Publication.slot
    hot := hotData.isSome
    cold := coldData.isSome }

/-- The block of slot 7 is evicted by that of slot 507. -/
def evictedSeven (payload : Bytes) : Eviction where
  recovered := some [payload]
  slot := 7
  parent_slot := 6
  later := [507]
  hot := true
  cold := false

theorem exists_evictedRun {rpc : RpcLibs Bytes} {payload : Bytes} {result : DeshredResult}
    (hdeshred : deshredIntoTxs [payload] = .ok (some result))
    (h : evictedRun rpc payload = .ok (evictedSeven payload)) :
    ∃ node batch hot cold,
      run rpc.toLibs .debug (Node.start .empty ∅ {}) [(namesOne 7 0, allWritten)] = .ok node ∧
        PublishStep rpc.toLibs .debug node (lastShred payload) batch [payload] result hot ∧
        batch.slot = 7 ∧ batch.parent_slot = 6 ∧
        LaterWithout rpc.toLibs .debug hot batch.slot hot ∧
        (∃ data, hot.ring_buffer.get batch.slot = .ok (some data)) ∧
        LaterWithout rpc.toLibs .debug hot batch.slot cold ∧
        cold.ring_buffer.get batch.slot = .ok none := by
  obtain ⟨node, hrun, h⟩ := bind_eq_ok.mp h
  obtain ⟨batch, hbatch, h⟩ := bind_eq_ok.mp h
  obtain ⟨recovered, hrecovered, h⟩ := bind_eq_ok.mp h
  obtain ⟨hot, hhot, h⟩ := bind_eq_ok.mp h
  obtain ⟨⟨cold, published⟩, hcold, h⟩ := bind_eq_ok.mp h
  obtain ⟨hotData, hhotData, h⟩ := bind_eq_ok.mp h
  obtain ⟨coldData, hcoldData, h⟩ := bind_eq_ok.mp h
  have hread := Except.ok.inj h
  simp only [evictedSeven, Eviction.mk.injEq] at hread
  obtain ⟨hpayload, hslot, hparent, hslots, hsome, hnone⟩ := hread
  subst hpayload
  obtain ⟨data, rfl⟩ := Option.isSome_iff_exists.mp hsome
  cases Option.not_isSome_iff_eq_none.mp (Bool.eq_false_iff.mp hnone)
  refine ⟨node, batch, hot, cold, hrun, ⟨hbatch, hrecovered, hdeshred, hhot, rfl, rfl⟩, hslot,
    hparent, ⟨[], [], rfl, fun p hp => absurd hp List.not_mem_nil⟩, ⟨data, ?_⟩,
    ⟨_, published, hcold, fun p hp => ?_⟩, ?_⟩
  · rw [hslot]
    exact hhotData
  · have hmem : p.slot ∈ published.map Publication.slot := List.mem_map_of_mem hp
    rw [hslots, List.mem_singleton] at hmem
    rw [hmem, hslot]
    decide
  · rw [hslot]
    exact hcoldData

/-- A block with one transaction, whose parent is the slot before. -/
theorem sameAnswers_sample : ∃ hot cold : Node,
    (∃ data, hot.ring_buffer.get 7 = .ok (some data)) ∧ cold.ring_buffer.get 7 = .ok none ∧
      SameAnswers (sampleRpc [[smallEntry [smallTx 4]]]) hot cold 7 := by
  have hevicted : evictedRun (sampleRpc [[smallEntry [smallTx 4]]]) (smallStream [smallTx 4]) =
      .ok (evictedSeven (smallStream [smallTx 4])) := by decide +kernel
  have hdeshred : deshredIntoTxs [smallStream [smallTx 4]] =
      .ok (some (smallResult [smallTx 4])) := by decide +kernel
  obtain ⟨node, batch, hot, cold, hrun, hstep, hslot, hparent, hhot, hkept, hcold, hgone⟩ :=
    exists_evictedRun hdeshred hevicted
  have hsame := (sameAnswers_iff FlatFileStore.wellNamed_empty hrun hstep
    (sampleRpc_readsBack _) hhot hkept hcold hgone).mpr
    ⟨List.cons_ne_nil _ _, by rw [hslot, hparent]; rfl⟩
  rw [hslot] at hkept hgone hsame
  exact ⟨hot, cold, hkept, hgone, hsame⟩

/-- A block without transactions. -/
theorem sameAnswers_emptyBlock :
    ¬ ∀ (rpc : RpcLibs Bytes) (build : Build) (file_store : FlatFileStore) (disk : Disk)
        (stats : PipelineStats) (deliveries : List Delivery) (node after hot cold : Node)
        (delivery : Delivery) (batch : FecBatch) (recovered : List Bytes)
        (result : DeshredResult),
      file_store.WellNamed →
      run rpc.toLibs build (Node.start file_store disk stats) deliveries = .ok node →
      PublishStep rpc.toLibs build node delivery batch recovered result after →
      ReadsBack rpc result.entries →
      LaterWithout rpc.toLibs build after batch.slot hot →
      (∃ data, hot.ring_buffer.get batch.slot = .ok (some data)) →
      LaterWithout rpc.toLibs build after batch.slot cold →
      cold.ring_buffer.get batch.slot = .ok none → SameAnswers rpc hot cold batch.slot := by
  intro hclaim
  have hevicted : evictedRun (sampleRpc [[smallEntry []]]) (smallStream []) =
      .ok (evictedSeven (smallStream [])) := by decide +kernel
  have hdeshred : deshredIntoTxs [smallStream []] = .ok (some (smallResult [])) := by
    decide +kernel
  obtain ⟨node, batch, hot, cold, hrun, hstep, hslot, -, hhot, hkept, hcold, hgone⟩ :=
    exists_evictedRun hdeshred hevicted
  have hloaded := (hclaim _ .debug .empty ∅ {} _ node hot hot cold _ batch _ (smallResult [])
    FlatFileStore.wellNamed_empty hrun hstep (sampleRpc_readsBack _) hhot hkept hcold hgone).loaded
  have hblock := holdsBlock_of_step hstep (run_wellNamed FlatFileStore.wellNamed_empty hrun)
  -- the ring buffer has the block and refuses it, the file store serves it
  have hnone : loadSlotData (sampleRpc [[smallEntry []]]) hot batch.slot = .ok none :=
    loadSlotData_hot hdeshred (sampleRpc_readsBack _)
      (get_of_holdsBlock (later_holdsBlock hhot hblock) hkept)
  have hsome : loadSlotData (sampleRpc [[smallEntry []]]) cold batch.slot =
      .ok (some (blockOf _ (smallResult []))) :=
    loadSlotData_cold hdeshred hgone (later_holdsBlock hcold hblock).load
  rw [hnone, hsome] at hloaded
  cases hloaded

end Sg32
