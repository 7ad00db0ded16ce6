/-
What the server answers (`rpc_server.rs`).

Whatever shreds have come in, every request gets a response, with a result or
with the one error that the request calls for.  The methods read the same
block, so that what they say of a transaction is the same, and the status page
names a root under which the block is served.

* `run_responds` — every request gets a response, and exactly when it is an
  error, and which;
* `methods_agree` — `getBlockWithProofs` lists what `getTransactionByIndex` and
  `getProof` answer one by one;
* `run_statsAgree` — the status page and the block that is served.
-/
import Sg32.OpenBatches
import Sg32.ServedTransactions

namespace Sg32

open Rust Bytes

/-! ### Requests that are refused -/

namespace JsonRpcRequest

def slot (req : JsonRpcRequest) : UInt64 := (paramU64 req.params 0).getD 0

def txIndex (req : JsonRpcRequest) : ℕ := ((paramU64 req.params 1).getD 0).toNat

end JsonRpcRequest

variable {Tx : Type}

/-- The methods that name a slot. -/
def slotMethods : List String := ["getSlot", "getLatestSlot"]

/-- The methods that load a block. -/
def blockMethods : List String :=
  ["getBlock", "getProof", "getTransactionByIndex", "getBlockWithProofs"]

/-- When a request is refused, and how. -/
inductive Refused (rpc : RpcLibs Tx) (node : Node) (req : JsonRpcRequest) : String → Prop
  | noSlots (method : req.method ∈ slotMethods) (empty : liveSlot node = 0) :
    Refused rpc node req "no slots available"
  | notFound (method : req.method ∈ blockMethods)
      (missing : loadSlotData rpc node req.slot = .ok none) :
    Refused rpc node req (slotNotFound req.slot)
  | pastEnd (method : req.method = "getTransactionByIndex") (block : List Tx × MerkleTree)
      (loaded : loadSlotData rpc node req.slot = .ok (some block))
      (past : block.1.length ≤ req.txIndex) :
    Refused rpc node req (outOfRange req.txIndex block.1.length)
  | unknown (method : req.method ∉ slotMethods ++ blockMethods) :
    Refused rpc node req ("unknown method: " ++ req.method)

/-- A response to the request, with an error exactly when it is refused. -/
structure Responds (id : UInt64) (refused : String → Prop) (response : JsonRpcResponse) : Prop where
  jsonrpc : response.jsonrpc = "2.0"
  id : response.id = id
  result : response.result.isSome ↔ response.error = none
  error : ∀ message, response.error = some message ↔ refused message

theorem responds_respond {id : UInt64} {refused : String → Prop} {result : Except String Json}
    (h : ∀ message, result = .error message ↔ refused message) :
    Responds id refused (respond id result) := by
  cases result with
  | ok json =>
    refine ⟨rfl, rfl, by simp [respond], fun message => ?_⟩
    rw [← h]
    simp [respond]
  | error error =>
    refine ⟨rfl, rfl, by simp [respond], fun message => ?_⟩
    rw [← h]
    simp [respond]

/-! ### Loading never panics -/

variable {rpc : RpcLibs Tx} {node : Node} {slot : UInt64}

/-- What is loaded is over the tree of some transactions. -/
theorem exists_loaded (hring : RingBlocks rpc.sha256 node.ring_buffer) (slot : UInt64) :
    ∃ loaded, loadSlotData rpc node slot = .ok loaded ∧
      ∀ block, loaded = some block →
        ∃ txs : List Bytes, block.2 = MerkleTree.new rpc.sha256 txs := by
  have hload : Returns (loadSlotData rpc node slot) := by
    rw [loadSlotData, SlotRingBuffer.get_eq hring.capacity_ne_zero, ok_bind]
    split
    · exact returns_pure _
    · split
      · obtain ⟨result, hresult⟩ := deshredIntoTxs_returns [_]
        rw [loadFromFile, hresult, ok_bind]
        exact returns_pure _
      · exact returns_pure _
  obtain ⟨loaded, hloaded⟩ := hload
  refine ⟨loaded, hloaded, ?_⟩
  rintro block rfl
  obtain ⟨txs, htree, -⟩ := blockLength_of_loaded hring hloaded
  exact ⟨txs, htree⟩

theorem exists_proofAt (sha256 : Bytes → Digest) (txs : List Bytes) (i : ℕ) :
    ∃ proof, (MerkleTree.new sha256 txs).proofAt i = .ok proof := by
  rcases Nat.lt_or_ge i txs.length with hlt | hge
  · obtain ⟨proof, hproof, -⟩ := exists_proofAt_new sha256 hlt
    exact ⟨proof, hproof⟩
  · exact ⟨[], proofAt_new_of_le sha256 hge⟩

/-- The parent of a slot is read without a panic. -/
theorem exists_parentSlot (hring : RingBlocks rpc.sha256 node.ring_buffer) (slot : UInt64) :
    ∃ parent_slot, parentSlot node slot = .ok parent_slot := by
  rw [parentSlot, SlotRingBuffer.get_eq hring.capacity_ne_zero, ok_bind]
  exact ⟨_, rfl⟩

theorem exists_txObjects (rpc : RpcLibs Tx) (txs : List Bytes) (with_tx_data : Bool)
    (parsed : List Tx) : ∃ tx_objects, parsed.zipIdx.mapM (fun (tx, i) =>
      txWithProof rpc (MerkleTree.new rpc.sha256 txs) with_tx_data tx i) = .ok tx_objects := by
  refine returns_mapM.mpr fun entry _ => ?_
  obtain ⟨proof, hproof⟩ := exists_proofAt rpc.sha256 txs entry.2
  show Returns (txWithProof rpc (MerkleTree.new rpc.sha256 txs) with_tx_data entry.1 entry.2)
  rw [txWithProof, hproof, ok_bind]
  exact returns_pure _

/-! ### Responses -/

variable {req : JsonRpcRequest}

/-- How a request is refused once its block is loaded. -/
def PastEnd (req : JsonRpcRequest) (block : List Tx × MerkleTree) (message : String) : Prop :=
  req.method = "getTransactionByIndex" ∧ block.1.length ≤ req.txIndex ∧
    message = outOfRange req.txIndex block.1.length

theorem not_mem_slotMethods (h : req.method ∈ blockMethods) : req.method ∉ slotMethods := by
  intro hslot
  simp only [blockMethods, List.mem_cons, List.not_mem_nil, or_false] at h
  rcases h with h | h | h | h <;> rw [h] at hslot <;> exact absurd hslot (by decide)

/-- A method that loads a block refuses when there is none, or past its end. -/
theorem refused_iff (hmethod : req.method ∈ blockMethods) (message : String) :
    Refused rpc node req message ↔
      (loadSlotData rpc node req.slot = .ok none ∧ message = slotNotFound req.slot) ∨
        ∃ block, loadSlotData rpc node req.slot = .ok (some block) ∧ PastEnd req block message := by
  constructor
  · intro h
    cases h with
    | noSlots method empty => exact absurd method (not_mem_slotMethods hmethod)
    | notFound method missing => exact .inl ⟨missing, rfl⟩
    | pastEnd method block loaded past => exact .inr ⟨block, loaded, method, past, rfl⟩
    | unknown method => exact absurd (List.mem_append_right slotMethods hmethod) method
  · rintro (⟨missing, rfl⟩ | ⟨block, loaded, method, past, rfl⟩)
    · exact .notFound hmethod missing
    · exact .pastEnd method block loaded past

theorem map_eq_error {α : Type} (toJson : α → Json) (answer : Except String α) (message : String) :
    answer.map toJson = .error message ↔ answer = .error message := by
  cases answer <;> simp [Except.map]

/-- The response of a method that loads a block, answers from it and renders the
answer. -/
theorem responds_withSlot (hring : RingBlocks rpc.sha256 node.ring_buffer)
    (hmethod : req.method ∈ blockMethods) {α : Type}
    {f : List Tx × MerkleTree → Checked (Except String α)}
    (render : Except String α → Except String Json)
    (hrender : ∀ answer message, render answer = .error message ↔ answer = .error message)
    (hf : ∀ block txs, block.2 = MerkleTree.new rpc.sha256 txs →
      ∃ answer, f block = .ok answer ∧
        ∀ message, answer = .error message ↔ PastEnd req block message) :
    ∃ response, (do
        let answer ← withSlot rpc node req.slot f
        pure (respond req.id (render answer))) = .ok response ∧
      Responds req.id (Refused rpc node req) response := by
  obtain ⟨loaded, hloaded, htree⟩ := exists_loaded hring req.slot
  cases loaded with
  | none =>
    refine ⟨respond req.id (render (.error (slotNotFound req.slot))), ?_,
      responds_respond fun message => ?_⟩
    · rw [withSlot, hloaded, ok_bind]
      rfl
    · rw [hrender, refused_iff hmethod, hloaded]
      simp [eq_comm]
  | some block =>
    obtain ⟨txs, hblock⟩ := htree block rfl
    obtain ⟨answer, hanswer, hrefused⟩ := hf block txs hblock
    refine ⟨respond req.id (render answer), ?_, responds_respond fun message => ?_⟩
    · rw [withSlot_of_loaded hloaded, hanswer, ok_bind]
      rfl
    · rw [hrender, refused_iff hmethod, hrefused, hloaded]
      simp

/-- The responses of the methods that name a slot. -/
theorem responds_slot (hmethod : req.method ∈ slotMethods) (json : Json) :
    Responds req.id (Refused rpc node req)
      (if liveSlot node = 0 then respond req.id (.error "no slots available")
        else respond req.id (.ok json)) := by
  have hrefused : ∀ message, Refused rpc node req message ↔
      liveSlot node = 0 ∧ message = "no slots available" := by
    intro message
    constructor
    · intro h
      cases h with
      | noSlots method empty => exact ⟨empty, rfl⟩
      | notFound method missing => exact absurd hmethod (not_mem_slotMethods method)
      | pastEnd method block loaded past =>
        exact absurd hmethod (not_mem_slotMethods (by rw [method]; decide))
      | unknown method => exact absurd (List.mem_append_left blockMethods hmethod) method
    · rintro ⟨empty, rfl⟩
      exact .noSlots hmethod empty
  split_ifs with hempty
  · refine responds_respond fun message => ?_
    rw [hrefused]
    simp [hempty, eq_comm]
  · refine responds_respond fun message => ?_
    rw [hrefused]
    simp [hempty]

theorem refused_unknown (hmethod : req.method ∉ slotMethods ++ blockMethods) (message : String) :
    (.error ("unknown method: " ++ req.method) : Except String Json) = .error message ↔
      Refused rpc node req message := by
  rw [Except.error.injEq]
  constructor
  · rintro rfl
    exact .unknown hmethod
  · intro h
    rw [List.mem_append, not_or] at hmethod
    cases h with
    | noSlots method empty => exact absurd method hmethod.1
    | notFound method missing => exact absurd method hmethod.2
    | pastEnd method block loaded past => exact absurd (by rw [method]; decide) hmethod.2
    | unknown method => rfl

/-- A method other than `getTransactionByIndex` refuses no block. -/
theorem answers_of_ok {α : Type} {c : Checked (Except String α)} {block : List Tx × MerkleTree}
    (hmethod : req.method ≠ "getTransactionByIndex") (h : ∃ a, c = .ok (.ok a)) :
    ∃ answer, c = .ok answer ∧ ∀ message, answer = .error message ↔ PastEnd req block message := by
  obtain ⟨a, ha⟩ := h
  exact ⟨.ok a, ha, fun message => by simp [PastEnd, hmethod]⟩

/-- **Every request gets a response**, after any run: with a result, or with the
error with which it is refused. -/
theorem run_responds {build : Build} {file_store : FlatFileStore} {disk : Disk}
    {stats : PipelineStats} {deliveries : List Delivery}
    (h : run rpc.toLibs build (.start file_store disk stats) deliveries = .ok node)
    (req : JsonRpcRequest) : ∃ response, jsonrpcHandler rpc node req = .ok response ∧
      Responds req.id (Refused rpc node req) response := by
  have hring := run_ringBlocks h
  obtain ⟨parent_slot, hparent⟩ := exists_parentSlot hring ((paramU64 req.params 0).getD 0)
  rw [jsonrpcHandler]
  split
  · rename_i hmethod
    exact ⟨_, rfl, responds_slot (by rw [hmethod]; decide) _⟩
  · rename_i hmethod
    refine responds_withSlot hring (by rw [hmethod]; decide) (fun answer => answer)
      (fun _ _ => Iff.rfl) fun block txs htree => answers_of_ok (by rw [hmethod]; decide) ?_
    show ∃ a, (parentSlot node ((paramU64 req.params 0).getD 0) >>= _) = _
    rw [hparent, ok_bind]
    exact ⟨_, rfl⟩
  · rename_i hmethod
    exact ⟨_, rfl, responds_slot (by rw [hmethod]; decide) _⟩
  · rename_i hmethod
    refine responds_withSlot hring (by rw [hmethod]; decide) _ (map_eq_error _)
      fun block txs htree => answers_of_ok (by rw [hmethod]; decide) ?_
    obtain ⟨proof, hproof⟩ := exists_proofAt rpc.sha256 txs req.txIndex
    show ∃ a, (block.2.proofAt req.txIndex >>= _) = _
    rw [htree, hproof, ok_bind]
    exact ⟨_, rfl⟩
  · rename_i hmethod
    refine responds_withSlot hring (by rw [hmethod]; decide) _ (map_eq_error _)
      fun block txs htree => ?_
    obtain ⟨proof, hproof⟩ := exists_proofAt rpc.sha256 txs req.txIndex
    cases htx : block.1[((paramU64 req.params 1).getD 0).toNat]? with
    | none =>
      simp only [htx]
      have hpast : block.1.length ≤ req.txIndex := List.getElem?_eq_none_iff.mp htx
      refine ⟨_, rfl, fun message => ?_⟩
      rw [PastEnd, Except.error.injEq, eq_comm]
      exact ⟨fun hmessage => ⟨hmethod, hpast, hmessage⟩, fun hpast => hpast.2.2⟩
    | some tx =>
      simp only [htx]
      have hlt : req.txIndex < block.1.length := (List.getElem?_eq_some_iff.mp htx).1
      show ∃ answer, (block.2.proofAt req.txIndex >>= _) = _ ∧ _
      rw [htree, hproof, ok_bind]
      refine ⟨_, rfl, fun message => ?_⟩
      simp [PastEnd, Nat.not_le.mpr hlt]
  · rename_i hmethod
    refine responds_withSlot hring (by rw [hmethod]; decide) _ (map_eq_error _)
      fun block txs htree => answers_of_ok (by rw [hmethod]; decide) ?_
    obtain ⟨tx_objects, hobjects⟩ := exists_txObjects rpc txs
      ((paramBool req.params 1).getD true) block.1
    show ∃ a, (block.1.zipIdx.mapM (fun entry => _) >>= _) = _
    rw [htree, hobjects, ok_bind, hparent, ok_bind]
    exact ⟨_, rfl⟩
  · rename_i hslot hblock hlatest hproof htx hblocks
    have hunknown : req.method ∉ slotMethods ++ blockMethods := by
      simp only [slotMethods, blockMethods, List.cons_append, List.nil_append, List.mem_cons,
        List.not_mem_nil, or_false, not_or]
      exact ⟨hslot, hlatest, hblock, hproof, htx, hblocks⟩
    exact ⟨_, rfl, responds_respond (refused_unknown hunknown)⟩

/-- A request for the block of slot 7, of which there is one transaction. -/
theorem run_responds_sample : ∃ node response,
    run sampleLibs .debug (.start .empty ∅ {}) fullBlock = .ok node ∧
      jsonrpcHandler (sampleRpc [[smallEntry [smallTx 4]]]) node
        ⟨"2.0", "getTransactionByIndex", paramsSeven, 1⟩ = .ok response ∧ response.id = 1 := by
  have hreported : reported (sampleRpc [[smallEntry [smallTx 4]]]) fullBlock =
      .ok (some true, some 1) := by decide +kernel
  obtain ⟨node, hrun, -⟩ := bind_eq_ok.mp hreported
  obtain ⟨response, hresponse, hresponds⟩ := run_responds hrun
    ⟨"2.0", "getTransactionByIndex", paramsSeven, 1⟩
  exact ⟨node, response, hrun, hresponse, hresponds.id⟩

/-! ### Agreement of the methods -/

/-- What the methods answer for one index of a block. -/
structure Agrees (rpc : RpcLibs Tx) (node : Node) (slot : UInt64) (root : Digest)
    (with_tx_data : Bool) (i : ℕ) (served : TxWithProof) : Prop where
  index : served.index = i
  answers : ∃ transaction verified,
    served.transaction = (if with_tx_data then some transaction else none) ∧
    getTransactionByIndex rpc node slot i = .ok (.ok
      ⟨⟨slot, i, served.leaf, served.proof, root, verified⟩, transaction⟩) ∧
    getProof rpc node slot i = .ok (.ok ⟨slot, i, served.leaf, served.proof, root, verified⟩)

/-- **The methods agree**: what `getBlockWithProofs` lists is what the others
answer for each index, and past the list they refuse. -/
theorem methods_agree {with_tx_data : Bool} {answer : BlockAnswer}
    (h : getBlockWithProofs rpc node slot with_tx_data = .ok (.ok answer)) :
    answer.num_transactions = answer.transactions.length ∧
      (∀ i served, answer.transactions[i]? = some served →
        Agrees rpc node slot answer.merkle_root with_tx_data i served) ∧
      ∀ i ≥ answer.num_transactions, getTransactionByIndex rpc node slot i =
        .ok (.error (outOfRange i answer.num_transactions)) := by
  obtain ⟨⟨parsed, tree⟩, hloaded, h⟩ := withSlot_eq_ok h
  obtain ⟨tx_objects, hobjects, h⟩ := bind_eq_ok.mp h
  obtain ⟨parent_slot, -, h⟩ := bind_eq_ok.mp h
  cases h
  obtain ⟨hlen, hget⟩ := getElem?_of_mapM hobjects
  rw [List.length_zipIdx] at hlen
  refine ⟨hlen, fun i served hserved => ?_, fun i hi => ?_⟩
  · obtain ⟨⟨tx, j⟩, hentry, hobject⟩ := hget i served hserved
    obtain ⟨htx, rfl⟩ : parsed[i]? = some tx ∧ i = j := by
      rw [List.getElem?_zipIdx] at hentry
      obtain ⟨tx', htx, hpair⟩ := Option.map_eq_some_iff.mp hentry
      simp only [Nat.zero_add, Prod.mk.injEq] at hpair
      exact ⟨hpair.1 ▸ htx, hpair.2⟩
    obtain ⟨proof, hproof, hobject⟩ := bind_eq_ok.mp hobject
    cases hobject
    refine ⟨rfl, txBytes rpc tx,
      MerkleTree.verify rpc.sha256 tree.root (tree.leafAt i) proof i, rfl, ?_, ?_⟩
    · rw [getTransactionByIndex, withSlot_of_loaded hloaded]
      simp only [htx, hproof, ok_bind]
      rfl
    · rw [getProof, withSlot_of_loaded hloaded]
      simp only [hproof, ok_bind]
      rfl
  · rw [getTransactionByIndex, withSlot_of_loaded hloaded]
    simp only [List.getElem?_eq_none hi]
    rfl

/-- Two transactions in the file store. -/
theorem methods_agree_sample : ∃ answer,
    getBlockWithProofs (sampleRpc []) (fileNode 7 (smallStream [smallTx 4, smallTx 5])) 7 true =
      .ok (.ok answer) ∧ answer.num_transactions = 2 ∧
      getTransactionByIndex (sampleRpc []) (fileNode 7 (smallStream [smallTx 4, smallTx 5])) 7 5 =
        .ok (.error (outOfRange 5 2)) := by
  obtain ⟨answer, hanswer, hcount⟩ := exists_answer (b := 2) (f := BlockAnswer.num_transactions)
    (c := getBlockWithProofs (sampleRpc []) (fileNode 7 (smallStream [smallTx 4, smallTx 5])) 7
      true) (by decide +kernel)
  obtain ⟨-, -, hpast⟩ := methods_agree hanswer
  rw [hcount] at hpast
  exact ⟨answer, hanswer, hcount, hpast 5 (by decide)⟩

/-! ### The status page -/

/-- The tree of the block that the statistics show is loaded for its slot. -/
theorem root_of_loaded {data : SlotData} (hshows : ShowsBlock node data)
    (hget : node.ring_buffer.get node.stats.latest_slot = .ok (some data))
    {block : List Tx × MerkleTree}
    (hblock : loadSlotData rpc node node.stats.latest_slot = .ok (some block)) :
    block.2.root = node.stats.latest_block_root := by
  rcases loadSlotData_cases hblock with ⟨data', hdata', hload⟩ | ⟨raw, result, hnone, -⟩
  · cases hget.symm.trans hdata'
    have htree := hshows.tree
    rw [(loadFromRing_eq_some hload).2.1] at htree
    exact Option.some.inj htree
  · cases hget.symm.trans hnone

/-- The field in which a method names the root of the block. -/
def rootField : String → Option String
  | "getProof" | "getTransactionByIndex" => some "root"
  | "getBlockWithProofs" => some "merkle_root"
  | _ => none

theorem exists_of_result {α : Type} {toJson : α → Json} {answer : Except String α} {id : UInt64}
    {result : Json} (h : (respond id (answer.map toJson)).result = some result) :
    ∃ a, answer = .ok a ∧ toJson a = result := by
  cases answer with
  | error error => cases h
  | ok a => exact ⟨a, rfl, Option.some.inj h⟩

/-- The root in a response is that of the block that is loaded. -/
theorem root_of_response {root : Digest}
    (hroot : ∀ block, loadSlotData rpc node req.slot = .ok (some block) → block.2.root = root)
    {response : JsonRpcResponse} (h : jsonrpcHandler rpc node req = .ok response) {result : Json}
    (hresult : response.result = some result) {field : String}
    (hfield : rootField req.method = some field) :
    result.get field = some (hexDigest rpc root) := by
  unfold rootField at hfield
  split at hfield <;> rename_i hmethod <;> simp only [jsonrpcHandler, hmethod] at h
  · obtain ⟨answer, hanswer, h⟩ := bind_eq_ok.mp h
    cases h
    cases hfield
    obtain ⟨answer, rfl, rfl⟩ := exists_of_result hresult
    obtain ⟨block, hblock, hanswer⟩ := withSlot_eq_ok hanswer
    obtain ⟨proof, -, hanswer⟩ := bind_eq_ok.mp hanswer
    cases hanswer
    rw [← hroot block hblock]
    rfl
  · obtain ⟨answer, hanswer, h⟩ := bind_eq_ok.mp h
    cases h
    cases hfield
    obtain ⟨answer, rfl, rfl⟩ := exists_of_result hresult
    obtain ⟨block, hblock, hanswer⟩ := withSlot_eq_ok hanswer
    rw [← hroot block hblock]
    cases htx : block.1[((paramU64 req.params 1).getD 0).toNat]? with
    | none =>
      simp only [htx] at hanswer
      cases hanswer
    | some tx =>
      simp only [htx] at hanswer
      obtain ⟨proof, -, hanswer⟩ := bind_eq_ok.mp hanswer
      cases hanswer
      rfl
  · obtain ⟨answer, hanswer, h⟩ := bind_eq_ok.mp h
    cases h
    cases hfield
    obtain ⟨answer, rfl, rfl⟩ := exists_of_result hresult
    obtain ⟨block, hblock, hanswer⟩ := withSlot_eq_ok hanswer
    obtain ⟨tx_objects, -, hanswer⟩ := bind_eq_ok.mp hanswer
    obtain ⟨parent_slot, -, hanswer⟩ := bind_eq_ok.mp hanswer
    cases hanswer
    rw [← hroot block hblock]
    rfl
  · cases hfield

/-- **The status page agrees with the block that is served**: as long as the
ring buffer has the last block, every response about it names the root that the
page shows. -/
theorem run_statsAgree {build : Build} {file_store : FlatFileStore} {disk : Disk}
    {deliveries : List Delivery}
    (h : run rpc.toLibs build (.start file_store disk {}) deliveries = .ok node)
    (hpos : 0 < node.stats.total_blocks_recovered) {data : SlotData}
    (hget : node.ring_buffer.get node.stats.latest_slot = .ok (some data)) :
    (statsHandler rpc node).get "latest_block_txs" = some (.nat data.num_transactions) ∧
      ∀ (req : JsonRpcRequest) (response : JsonRpcResponse) (result : Json) (field : String),
        jsonrpcHandler rpc node req = .ok response → req.slot = node.stats.latest_slot →
        response.result = some result → rootField req.method = some field →
          result.get field = (statsHandler rpc node).get "latest_block_root" := by
  have hring := run_ringBlocks h
  have hshow : StatsShow node := foldlM_preserves StatsShow
    (fun _ _ _ hstep hshow => step_statsShow hshow hstep) h (statsShow_start file_store disk)
  obtain ⟨data', hshows⟩ := hshow.some hpos
  have hstored : node.ring_buffer.stored node.stats.latest_slot = some data := by
    rw [SlotRingBuffer.get_eq hring.capacity_ne_zero] at hget
    exact SlotRingBuffer.stored_of_contents (Except.ok.inj hget)
  cases hstored.symm.trans hshows.stored
  refine ⟨?_, fun req response result field hresponse hslot hresult hfield => ?_⟩
  · rw [hshows.txs]
    rfl
  · refine root_of_response (fun block hblock => ?_) hresponse hresult hfield
    rw [hslot] at hblock
    exact root_of_loaded hshows hget hblock

/-- The block of slot 7, which the statistics show. -/
theorem run_statsAgree_sample : ∃ node response result,
    run sampleLibs .debug (.start .empty ∅ {}) fullBlock = .ok node ∧
      jsonrpcHandler (sampleRpc [[smallEntry [smallTx 4]]]) node
        ⟨"2.0", "getProof", paramsSeven, 1⟩ = .ok response ∧ response.result = some result ∧
      result.get "root" =
        (statsHandler (sampleRpc [[smallEntry [smallTx 4]]]) node).get "latest_block_root" := by
  have hcheck : (run sampleLibs .debug (.start .empty ∅ {}) fullBlock).map (fun node =>
      (decide (0 < node.stats.total_blocks_recovered), decide (7 = node.stats.latest_slot),
        (node.ring_buffer.get node.stats.latest_slot).toOption.join.isSome,
        ((jsonrpcHandler (sampleRpc [[smallEntry [smallTx 4]]]) node
          ⟨"2.0", "getProof", paramsSeven, 1⟩).toOption.bind JsonRpcResponse.result).isSome)) =
        .ok (true, true, true, true) := by
    decide +kernel
  rcases hrun : run sampleLibs .debug (.start .empty ∅ {}) fullBlock with p | node
  · rw [hrun] at hcheck
    cases hcheck
  rw [hrun] at hcheck
  obtain ⟨hpos, hcheck⟩ := Prod.mk.inj (Except.ok.inj hcheck)
  obtain ⟨hslot, hcheck⟩ := Prod.mk.inj hcheck
  obtain ⟨hserved, hanswered⟩ := Prod.mk.inj hcheck
  rcases hget : node.ring_buffer.get node.stats.latest_slot with p | _ | data
  · rw [hget] at hserved
    cases hserved
  · rw [hget] at hserved
    cases hserved
  · rcases hresponse : jsonrpcHandler (sampleRpc [[smallEntry [smallTx 4]]]) node
      ⟨"2.0", "getProof", paramsSeven, 1⟩ with p | response
    · rw [hresponse] at hanswered
      cases hanswered
    rw [hresponse] at hanswered
    obtain ⟨result, hresult⟩ := Option.isSome_iff_exists.mp hanswered
    obtain ⟨-, hagree⟩ := @run_statsAgree Bytes (sampleRpc [[smallEntry [smallTx 4]]]) _ _ _ _ _
      hrun (of_decide_eq_true hpos) _ hget
    exact ⟨node, response, result, rfl, hresponse, hresult,
      hagree _ response result "root" hresponse (of_decide_eq_true hslot) hresult rfl⟩

end Sg32
