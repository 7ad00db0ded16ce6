/-
From packets to answers (`main.rs`, `rpc_server.rs`).

Packets bring shreds of encoded sets, while gossip and the other tasks go on.
Once 32 shreds of a set arrived, a request for a transaction of its block is
answered with the bytes that the leader encoded, and with a proof that verifies.
The payloads of code shreds of the wire format do not have the length of those
of their data shreds, so the 32 are the data shreds: nothing here is recovered
from code shreds.

* `step_holdsBlocks` — what the ring buffer has for the slot of a set is what a
  batch of the set published;
* `run_answers` — the answers of a node, whatever the interleaving of its tasks.
-/
import Sg32.NodeSystem
import Sg32.RepairedBlocks
import Sg32.RpcResponses

namespace Sg32

open Rust Bytes Reactor SlotRingBuffer

/-! ### Blocks in the ring buffer -/

variable {libs : Libs} {build : Build} {io : FileIo} {first : ℕ} {sets : List FecSet}
  {seen : List Delivery} {node node' : Node} {set : FecSet} {shred : Shred}

/-- The ring buffer has for the slot of a set the block that a batch published
with its transactions, if it has one. -/
def HoldsBlocks (libs : Libs) (sets : List FecSet) (node : Node) : Prop :=
  ∀ set ∈ sets, ∀ data, node.ring_buffer.contents set.id.slot = some data →
    ∃ batch, data = slotData libs batch set.result

/-- A shred of a set publishes the block of the set, or nothing. -/
theorem step_publishes (hsets : OneWindow first sets) (h : RunState libs first sets seen node)
    (hset : set ∈ sets) (hmem : shred ∈ set.shreds)
    (hstep : processShred libs build io node shred = .ok node') :
    KeepsStores node node' ∨ ∃ batch, batch.slot = set.id.slot ∧
      Publishes libs build io node batch set.data_shreds set.result node' ∧
      ∀ slot, node'.ring_buffer.contents slot =
        if slot = set.id.slot then some (slotData libs batch set.result)
        else node.ring_buffer.contents slot := by
  obtain ⟨held, hholds, hslot, -, hheld, -⟩ := (h.setState set hset).batch
  obtain ⟨row, hrow⟩ := List.getElem?_of_mem hmem
  obtain ⟨batch, hadd, -, hslot', -, hrecover⟩ :=
    FecSet.exists_addShred build hholds hslot hheld hrow
  by_cases hfew : (insert row held).card < NUM_DATA_SHREDS
  · rw [if_pos hfew] at hrecover
    obtain ⟨kept, hkept, hkeep, -⟩ := processShred_kept libs io hadd hrecover
    cases hstep.symm.trans hkept
    exact .inl hkeep
  · rw [if_neg hfew] at hrecover
    obtain ⟨published, hpublished, -, hcontents, -⟩ := FecSet.exists_published libs io h.window
      (hsets.inSlots set hset) hmem hadd hslot' hrecover
    cases hstep.symm.trans hpublished
    exact .inr ⟨batch, hslot', publishes_of_recovers hadd hrecover set.deshredded hstep,
      hcontents⟩

theorem step_holdsBlocks (hsets : OneWindow first sets) (h : RunState libs first sets seen node)
    (hblocks : HoldsBlocks libs sets node) (hset : set ∈ sets) (hmem : shred ∈ set.shreds)
    (hstep : processShred libs build io node shred = .ok node') :
    HoldsBlocks libs sets node' := by
  intro other hother data hdata
  rcases step_publishes hsets h hset hmem hstep with hkeep | ⟨batch, -, -, hcontents⟩
  · rw [hkeep.ring_buffer] at hdata
    exact hblocks other hother data hdata
  · rw [hcontents] at hdata
    split_ifs at hdata with hsame
    · obtain rfl := hsets.distinct set hset other hother hsame
      cases hdata
      exact ⟨batch, rfl⟩
    · exact hblocks other hother data hdata

/-- **After any deliveries of the sets**, the blocks of those of which 32 shreds
arrived are there as they were published. -/
theorem exists_run_holdsBlocks (libs : Libs) (build : Build) (hsets : OneWindow first sets)
    (file_store : FlatFileStore) (disk : Disk) (stats : PipelineStats)
    {deliveries : List Delivery}
    (hfrom : ∀ delivery ∈ deliveries, ∃ set ∈ sets, delivery.1 ∈ set.shreds) :
    ∃ node, run libs build (.start file_store disk stats) deliveries = .ok node ∧
      RunState libs first sets deliveries node ∧ HoldsBlocks libs sets node := by
  refine foldlM_invariant (fun seen node => RunState libs first sets seen node ∧
    HoldsBlocks libs sets node) (fun seen node delivery hfrom h => ?_) hfrom
    ⟨runState_start first sets file_store disk stats, fun set _ data hdata => ?_⟩
  · obtain ⟨node', hstep, hstate⟩ := step_runState build hsets seen node delivery hfrom h.1
    obtain ⟨set, hset, hmem⟩ := hfrom
    exact ⟨node', hstep, hstate, step_holdsBlocks hsets h.1 h.2 hset hmem hstep⟩
  · rw [Node.start, contents_new] at hdata
    cases hdata

/-! ### Answers -/

variable {Tx : Type} {rpc : RpcLibs Tx}

/-- The index of a transaction that is parsed is the one that it has in the block. -/
theorem getElem?_of_parsed {txs : List Bytes} (h : AcceptedFirst rpc txs) {i : ℕ} {bytes : Bytes}
    (hbytes : txs[i]? = some bytes) {tx : Tx} (hparsed : rpc.deserializeTx bytes = some tx) :
    (parseTransactions rpc txs)[i]? = some tx := by
  induction txs generalizing i with
  | nil => cases hbytes
  | cons head txs ih =>
    obtain ⟨hhead, htail⟩ := List.pairwise_cons.mp h
    cases i with
    | zero =>
      cases hbytes
      rw [parseTransactions, List.filterMap_cons_some hparsed]
      rfl
    | succ i =>
      -- one that is parsed comes later, so the first one is
      have hmem : bytes ∈ txs := List.mem_of_getElem? hbytes
      have hsome : (rpc.deserializeTx bytes).isSome := by rw [hparsed]; rfl
      obtain ⟨first, hfirst⟩ := Option.isSome_iff_exists.mp (hhead bytes hmem hsome)
      rw [parseTransactions, List.filterMap_cons_some hfirst]
      exact ih htail hbytes

/-- The transaction at this index of the block, with a proof under its root. -/
structure Proves (sha256 : Bytes → Digest) (txs : List Bytes) (i : ℕ) (answer : TransactionAnswer) :
    Prop where
  transaction : txs[i]? = some answer.transaction
  root : answer.root = (MerkleTree.new sha256 txs).root
  verifies : MerkleTree.verify sha256 answer.root (sha256 answer.transaction) answer.proof i = true

/-- A node that has the block answers with its transactions. -/
theorem exists_proves_of_hasBlock {slot : UInt64} {result : DeshredResult}
    (hcodec : ∀ bytes tx, rpc.deserializeTx bytes = some tx → rpc.serializeTx tx = some bytes)
    (hround : ReadsBack rpc result.entries) (hfirst : AcceptedFirst rpc result.transactions)
    (hblock : HasBlock rpc node slot result) {req : JsonRpcRequest}
    (hmethod : req.method = "getTransactionByIndex") (hslot : req.slot = slot) {bytes : Bytes}
    (hbytes : result.transactions[req.txIndex]? = some bytes)
    (hparsed : (rpc.deserializeTx bytes).isSome) :
    ∃ answer, jsonrpcHandler rpc node req = .ok (respond req.id (.ok (answer.toJson rpc))) ∧
      answer.transaction = bytes ∧ Proves rpc.sha256 result.transactions req.txIndex answer := by
  obtain ⟨tx, htx⟩ := Option.isSome_iff_exists.mp hparsed
  obtain ⟨hi, hget⟩ := List.getElem?_eq_some_iff.mp hbytes
  have hload := loaded_of_hasBlock hround hblock (List.ne_nil_of_length_pos (by omega))
  have hindex := getElem?_of_parsed hfirst hbytes htx
  obtain ⟨proof, hproof, hverify⟩ := exists_proofAt_new rpc.sha256 hi
  have hserved : txBytes rpc tx = bytes := by
    rw [txBytes, hcodec bytes tx htx, Option.getD_some]
  obtain ⟨answer, hanswer, htransaction, hroot, hanswered⟩ : ∃ answer,
      getTransactionByIndex rpc node req.slot req.txIndex = .ok (.ok answer) ∧
        answer.transaction = bytes ∧
        answer.root = (MerkleTree.new rpc.sha256 result.transactions).root ∧
        answer.proof = proof := by
    rw [getTransactionByIndex, hslot, withSlot_of_loaded hload]
    simp only [hindex, hproof, ok_bind, hserved]
    exact ⟨_, rfl, rfl, rfl, rfl⟩
  refine ⟨answer, ?_, htransaction, by rw [htransaction, hbytes], hroot, ?_⟩
  · simp only [jsonrpcHandler, hmethod]
    show (getTransactionByIndex rpc node req.slot req.txIndex >>= _) = _
    rw [hanswer]
    rfl
  · rw [hroot, htransaction, hanswered, ← hget]
    exact hverify

namespace NodeSystem

variable {F : Type} {env : SystemEnv F} {events : List (SystemEvent F)}
  {last_pull last_prune last_repair_poll : ℕ} {file_store : FlatFileStore} {disk : Disk}

/-- The shreds that come to a node are those of its packets. -/
theorem deliveries_datagrams (events : List (SystemEvent F)) :
    events.flatMap deliveries = (datagrams events).flatMap MainLoop.deliveries := by
  induction events with
  | nil => rfl
  | cons e events ih =>
    rw [List.flatMap_cons, ih]
    cases e <;> rfl

/-- A node goes on for as long as its pipeline does. -/
theorem exists_run_of_node {s : NodeSystem} {node : Node}
    (h : Sg32.run env.main.libs env.main.build s.main.node
      ((datagrams events).flatMap MainLoop.deliveries) = .ok node) :
    ∃ s' log, run env s events = .ok (s', log) ∧ s'.main.node = node := by
  have hrun : (run env s events).map (fun r => r.1.main.node) = .ok node := by
    rw [← h, ← deliveries_datagrams]
    exact react_refines (fun s : NodeSystem => s.main.node) deliveries (step_map_node env)
  rcases hloop : run env s events with p | ⟨s', log⟩
  · rw [hloop] at hrun
    cases hrun
  · rw [hloop] at hrun
    exact ⟨s', log, rfl, Except.ok.inj hrun⟩

/-- **From packets to answers**: whatever gossip and the other tasks do, and in
whatever order packets come, the node goes on, and each accepted transaction of
a set of which 32 different shreds arrived is answered, with a proof that
verifies.  There is one set for each slot, all in one window, and no transaction
that is accepted comes after one that is not. -/
theorem run_answers (hlibs : env.main.libs = rpc.toLibs)
    (hcodec : ∀ bytes tx, rpc.deserializeTx bytes = some tx → rpc.serializeTx tx = some bytes)
    (hsets : OneWindow first sets) (hfrom : MainLoop.FromSets sets (datagrams events))
    (hround : ∀ set ∈ sets, ReadsBack rpc set.result.entries)
    (hfirst : ∀ set ∈ sets, AcceptedFirst rpc set.result.transactions) :
    ∃ s' log, run env (start env last_pull last_prune last_repair_poll file_store disk) events =
        .ok (s', log) ∧
      ∀ set ∈ sets, NUM_DATA_SHREDS ≤ (set.arrived (datagrams events)).card →
        ∀ (req : JsonRpcRequest) (bytes : Bytes), req.method = "getTransactionByIndex" →
          req.slot = set.id.slot → set.result.transactions[req.txIndex]? = some bytes →
          (rpc.deserializeTx bytes).isSome →
          ∃ answer, jsonrpcHandler rpc s'.main.node req =
              .ok (respond req.id (.ok (answer.toJson rpc))) ∧
            answer.transaction = bytes ∧
            Proves rpc.sha256 set.result.transactions req.txIndex answer := by
  obtain ⟨node, hnode, hstate, hblocks⟩ := exists_run_holdsBlocks env.main.libs env.main.build
    hsets file_store disk {} (MainLoop.mem_deliveries hfrom)
  -- the node is where the pipeline takes it
  obtain ⟨s', log, hrun, rfl⟩ := exists_run_of_node
    (s := start env last_pull last_prune last_repair_poll file_store disk) hnode
  refine ⟨s', log, hrun, fun set hset hmany req bytes hmethod hslot hbytes hparsed => ?_⟩
  obtain ⟨data, hdata, -⟩ := (hstate.setState set hset).served hmany
  obtain ⟨batch, rfl⟩ := hblocks set hset data hdata
  have hget : s'.main.node.ring_buffer.get set.id.slot =
      .ok (some (slotData rpc.toLibs batch set.result)) := by
    rw [get_eq hstate.window.inWindow.capacity_ne_zero, hdata, hlibs]
  exact exists_proves_of_hasBlock hcodec (hround set hset) (hfirst set hset)
    (.ring set.data_shreds batch set.deshredded hget) hmethod hslot hbytes hparsed

/-- The sample run, and the data shreds of slot 7. -/
def sampleArrivals : List (SystemEvent Unit) :=
  sampleSystem ++ (List.finRange NUM_DATA_SHREDS).reverse.map fun row =>
    .datagram ((WireShred.data (sampleWire row)).packet ++ le32 9) samplePeer allWritten

theorem datagrams_sampleArrivals : datagrams sampleArrivals =
    .datagram (pingPacket.encode samplePing) samplePinger allWritten ::
      (List.finRange NUM_DATA_SHREDS).reverse.map fun row =>
        .datagram ((WireShred.data (sampleWire row)).packet ++ le32 9) samplePeer allWritten := by
  have hsystem : datagrams sampleSystem =
      [.datagram (pingPacket.encode samplePing) samplePinger allWritten] := rfl
  have hpackets : ∀ rows : List (Fin NUM_DATA_SHREDS), datagrams (rows.map fun row =>
      (.datagram ((WireShred.data (sampleWire row)).packet ++ le32 9) samplePeer allWritten :
        SystemEvent Unit)) = rows.map fun row =>
      .datagram ((WireShred.data (sampleWire row)).packet ++ le32 9) samplePeer allWritten := by
    intro rows
    rw [datagrams, List.filterMap_map]
    exact congrFun List.filterMap_eq_map rows
  rw [sampleArrivals, datagrams_append, hsystem, hpackets, List.singleton_append]

theorem fromSets_sampleArrivals : MainLoop.FromSets [sampleSet] (datagrams sampleArrivals) := by
  intro packet peer io shred hmem hshred
  refine fromSets_sampleEvents packet peer io shred ?_ hshred
  rw [datagrams_sampleArrivals] at hmem
  rcases List.mem_cons.mp hmem with hping | hmem
  · rw [hping]
    exact List.mem_append_left _ (by simp [sampleTraffic])
  · exact List.mem_append_right _ hmem

theorem le_card_sampleArrivals :
    NUM_DATA_SHREDS ≤ (sampleSet.arrived (datagrams sampleArrivals)).card := by
  refine le_card_arrived fun row => ?_
  rw [datagrams_sampleArrivals]
  exact List.mem_cons_of_mem _ (List.mem_map.mpr ⟨row, by simp, rfl⟩)

theorem readsBack_sampleSet : ∀ set ∈ [sampleSet],
    ReadsBack (sampleRpc [[smallEntry [smallTx 4]]]) set.result.entries := by
  intro set hset
  rw [List.mem_singleton.mp hset]
  exact sampleRpc_readsBack _

theorem acceptedFirst_sampleSet : ∀ set ∈ [sampleSet],
    AcceptedFirst (sampleRpc [[smallEntry [smallTx 4]]]) set.result.transactions := by
  intro set hset
  rw [List.mem_singleton.mp hset]
  exact List.pairwise_singleton _ _

/-- The 32 data shreds of slot 7; no code shred arrives. -/
theorem run_answers_sample : ∃ s' log, ∃ answer : TransactionAnswer,
    run sampleSystemEnv (start sampleSystemEnv 0 0 0 .empty ∅) sampleArrivals = .ok (s', log) ∧
      jsonrpcHandler (sampleRpc [[smallEntry [smallTx 4]]]) s'.main.node
        ⟨"2.0", "getTransactionByIndex", paramsSeven, 1⟩ =
          .ok (respond 1 (.ok (answer.toJson (sampleRpc [[smallEntry [smallTx 4]]])))) ∧
      answer.transaction = smallTx 4 := by
  obtain ⟨s', log, hrun, hanswers⟩ := @run_answers 0 [sampleSet] Bytes
    (sampleRpc [[smallEntry [smallTx 4]]]) Unit sampleSystemEnv sampleArrivals 0 0 0 .empty ∅ rfl
    (sampleRpc_codec _) oneWindow_sampleSet fromSets_sampleArrivals readsBack_sampleSet
    acceptedFirst_sampleSet
  obtain ⟨answer, hanswer, htransaction, -⟩ := hanswers sampleSet (List.mem_singleton_self _)
    le_card_sampleArrivals ⟨"2.0", "getTransactionByIndex", paramsSeven, 1⟩ (smallTx 4) rfl rfl rfl
    (by decide)
  exact ⟨s', log, answer, hrun, hanswer, htransaction⟩

end NodeSystem

end Sg32
