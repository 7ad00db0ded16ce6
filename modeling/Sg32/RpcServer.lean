/-
The JSON-RPC server (`rpc_server.rs`).

A block is loaded from the ring buffer or, failing that, from the file store;
its transactions are parsed by the SDK and its tree is the published one or is
built again.  The methods compute an answer from the two, and the handlers
read the parameters and render the answer.
-/
import Sg32.ProcessShred

namespace Sg32

open Rust

/-! ### JSON values -/

/-- A number, in the three shapes in which it is kept. -/
inductive JsonNumber
  | posInt (n : UInt64)
  | negInt (n : Int64)
  | float (bits : UInt64)
  deriving DecidableEq

inductive Json
  | null
  | bool (b : Bool)
  | number (n : JsonNumber)
  | str (s : String)
  | arr (items : List Json)
  | obj (fields : List (String × Json))

namespace Json

def nat (n : ℕ) : Json := .number (.posInt (.ofNat n))

def u64 (n : UInt64) : Json := .number (.posInt n)

def asArray : Json → Option (List Json)
  | .arr items => some items
  | _ => none

def asU64 : Json → Option UInt64
  | .number (.posInt n) => some n
  | _ => none

def asStr : Json → Option String
  | .str s => some s
  | _ => none

def asBool : Json → Option Bool
  | .bool b => some b
  | _ => none

/-- The value of a field. -/
def get (json : Json) (name : String) : Option Json :=
  match json with
  | .obj fields => (fields.find? fun field => field.1 = name).map Prod.snd
  | _ => none

end Json

structure JsonRpcRequest where
  jsonrpc : String
  method : String
  params : Option Json
  id : UInt64

structure JsonRpcResponse where
  jsonrpc : String
  result : Option Json
  error : Option String
  id : UInt64

def paramU64 (params : Option Json) (i : ℕ) : Option UInt64 := do
  let items ← (← params).asArray
  (← items[i]?).asU64

def paramStr (params : Option Json) (i : ℕ) : Option String := do
  let items ← (← params).asArray
  (← items[i]?).asStr

def paramBool (params : Option Json) (i : ℕ) : Option Bool := do
  let items ← (← params).asArray
  (← items[i]?).asBool

/-- The response with a result or with an error. -/
def respond (id : UInt64) : Except String Json → JsonRpcResponse
  | .ok result => { jsonrpc := "2.0", result := some result, error := none, id := id }
  | .error error => { jsonrpc := "2.0", result := none, error := some error, id := id }

/-! ### Loading a block -/

/-- The libraries of the server: `bincode` for entries and for the SDK's
transactions, the signatures of a transaction, and the text encodings. -/
structure RpcLibs (Tx : Type) extends Libs where
  deserializeEntries : Bytes → Option (List Entry)
  deserializeTx : Bytes → Option Tx
  serializeTx : Tx → Option Bytes
  signatures : Tx → List (Vector UInt8 64)
  hexEncode : Bytes → String
  base58 : Bytes → String
  base64 : Bytes → String

variable {Tx : Type} (libs : RpcLibs Tx)

/-- The transactions that the SDK can parse. -/
def parseTransactions (raw : List Bytes) : List Tx := raw.filterMap libs.deserializeTx

/-- A block of the ring buffer, unless it has no transactions. -/
def loadFromRing (data : SlotData) : Option (List Tx × MerkleTree) :=
  if data.num_transactions = 0 then none
  else do
    let tree ← data.merkle_tree
    let entries ← libs.deserializeEntries data.entries
    some (parseTransactions libs (entries.flatMap Entry.transactions), tree)

/-- A block of the file store. -/
def loadFromFile (raw : Bytes) : Checked (Option (List Tx × MerkleTree)) := do
  let result ← deshredIntoTxs [raw]
  pure (result.map fun result =>
    (parseTransactions libs result.transactions,
      MerkleTree.new libs.sha256 result.transactions))

def loadSlotData (node : Node) (slot : UInt64) : Checked (Option (List Tx × MerkleTree)) := do
  let data ← node.ring_buffer.get slot
  match data with
  | some data => pure (loadFromRing libs data)
  | none =>
    match node.file_store.loadSlot node.disk slot with
    | some raw => loadFromFile libs raw
    | none => pure none

def slotNotFound (slot : UInt64) : String := "slot " ++ toString slot.toNat ++ " not found"

/-- Use a block that was loaded. -/
def withSlot {α : Type} (node : Node) (slot : UInt64)
    (answer : List Tx × MerkleTree → Checked (Except String α)) : Checked (Except String α) := do
  let loaded ← loadSlotData libs node slot
  match loaded with
  | some block => answer block
  | none => pure (.error (slotNotFound slot))

/-- `tree.leaves.get(i).copied().unwrap_or([0u8; 32])`. -/
def MerkleTree.leafAt (tree : MerkleTree) (i : ℕ) : Digest := (tree.leaves[i]?).getD zeroDigest

/-- `tree.prove(i).unwrap_or_default()`. -/
def MerkleTree.proofAt (tree : MerkleTree) (i : ℕ) : Checked (List Digest) := do
  let proof ← tree.prove i
  pure (proof.getD [])

/-- `bincode::serialize(tx).unwrap_or_default()`. -/
def txBytes (tx : Tx) : Bytes := (libs.serializeTx tx).getD []

/-- The parent of a slot that is not in the ring buffer is the slot before. -/
def parentSlot (node : Node) (slot : UInt64) : Checked UInt64 := do
  let data ← node.ring_buffer.get slot
  pure (data.elim (FecBatch.saturatingSub slot 1) SlotData.parent_slot)

/-! ### Methods -/

structure ProofAnswer where
  slot : UInt64
  tx_index : ℕ
  leaf : Digest
  proof : List Digest
  root : Digest
  verified : Bool

def getProof (node : Node) (slot : UInt64) (tx_index : ℕ) :
    Checked (Except String ProofAnswer) :=
  withSlot libs node slot fun (_, tree) => do
    let leaf := tree.leafAt tx_index
    let proof ← tree.proofAt tx_index
    let verified := MerkleTree.verify libs.sha256 tree.root leaf proof tx_index
    pure (.ok {
      slot := slot
      tx_index := tx_index
      leaf := leaf
      proof := proof
      root := tree.root
      verified := verified })

structure TransactionAnswer extends ProofAnswer where
  transaction : Bytes

def outOfRange (tx_index count : ℕ) : String :=
  "tx_index " ++ toString tx_index ++ " out of range (max " ++ toString (count - 1) ++ ")"

def getTransactionByIndex (node : Node) (slot : UInt64) (tx_index : ℕ) :
    Checked (Except String TransactionAnswer) :=
  withSlot libs node slot fun (txs, tree) =>
    match txs[tx_index]? with
    | none => pure (.error (outOfRange tx_index txs.length))
    | some tx => do
      let tx_bytes := txBytes libs tx
      let leaf := tree.leafAt tx_index
      let proof ← tree.proofAt tx_index
      let verified := MerkleTree.verify libs.sha256 tree.root leaf proof tx_index
      pure (.ok {
        slot := slot
        tx_index := tx_index
        transaction := tx_bytes
        leaf := leaf
        proof := proof
        root := tree.root
        verified := verified })

structure TxWithProof where
  index : ℕ
  signatures : List (Vector UInt8 64)
  leaf : Digest
  proof : List Digest
  transaction : Option Bytes

structure BlockAnswer where
  slot : UInt64
  parentSlot : UInt64
  num_transactions : ℕ
  merkle_root : Digest
  transactions : List TxWithProof

/-- One transaction of a block, with its proof. -/
def txWithProof (tree : MerkleTree) (with_tx_data : Bool) (tx : Tx) (i : ℕ) :
    Checked TxWithProof := do
  let leaf := tree.leafAt i
  let proof ← tree.proofAt i
  let tx_bytes := txBytes libs tx
  pure {
    index := i
    signatures := libs.signatures tx
    leaf := leaf
    proof := proof
    transaction := if with_tx_data then some tx_bytes else none }

def getBlockWithProofs (node : Node) (slot : UInt64) (with_tx_data : Bool) :
    Checked (Except String BlockAnswer) :=
  withSlot libs node slot fun (txs, tree) => do
    let tx_objects ← txs.zipIdx.mapM fun (tx, i) => txWithProof libs tree with_tx_data tx i
    let parent_slot ← parentSlot node slot
    pure (.ok {
      slot := slot
      parentSlot := parent_slot
      num_transactions := txs.length
      merkle_root := tree.root
      transactions := tx_objects })

/-! ### Handlers -/

def hexDigest (digest : Digest) : Json := .str (libs.hexEncode digest.toList)

def ProofAnswer.toJson (answer : ProofAnswer) : Json :=
  .obj [("slot", .u64 answer.slot), ("tx_index", .nat answer.tx_index),
    ("leaf", hexDigest libs answer.leaf), ("proof", .arr (answer.proof.map (hexDigest libs))),
    ("root", hexDigest libs answer.root), ("verified", .bool answer.verified)]

def TransactionAnswer.toJson (answer : TransactionAnswer) : Json :=
  .obj [("slot", .u64 answer.slot), ("tx_index", .nat answer.tx_index),
    ("transaction", .str (libs.hexEncode answer.transaction)),
    ("leaf", hexDigest libs answer.leaf), ("proof", .arr (answer.proof.map (hexDigest libs))),
    ("root", hexDigest libs answer.root), ("verified", .bool answer.verified)]

/-- The signatures in base 58. -/
def signaturesJson (signatures : List (Vector UInt8 64)) : Json :=
  .arr (signatures.map fun s => .str (libs.base58 s.toList))

def TxWithProof.toJson (tx : TxWithProof) : Json :=
  .obj ([("index", .nat tx.index), ("signatures", signaturesJson libs tx.signatures),
      ("leaf", hexDigest libs tx.leaf), ("proof", .arr (tx.proof.map (hexDigest libs)))] ++
    tx.transaction.toList.map fun bytes => ("transaction", .str (libs.hexEncode bytes)))

def BlockAnswer.toJson (answer : BlockAnswer) : Json :=
  .obj [("slot", .u64 answer.slot), ("parentSlot", .u64 answer.parentSlot),
    ("num_transactions", .nat answer.num_transactions),
    ("merkle_root", hexDigest libs answer.merkle_root),
    ("transactions", .arr (answer.transactions.map (TxWithProof.toJson libs)))]

def handleGetProof (node : Node) (params : Option Json) (id : UInt64) :
    Checked JsonRpcResponse := do
  let slot := (paramU64 params 0).getD 0
  let tx_index := ((paramU64 params 1).getD 0).toNat
  let answer ← getProof libs node slot tx_index
  pure (respond id (answer.map (ProofAnswer.toJson libs)))

def handleGetTransactionByIndex (node : Node) (params : Option Json) (id : UInt64) :
    Checked JsonRpcResponse := do
  let slot := (paramU64 params 0).getD 0
  let tx_index := ((paramU64 params 1).getD 0).toNat
  let answer ← getTransactionByIndex libs node slot tx_index
  pure (respond id (answer.map (TransactionAnswer.toJson libs)))

def handleGetBlockWithProofs (node : Node) (params : Option Json) (id : UInt64) :
    Checked JsonRpcResponse := do
  let slot := (paramU64 params 0).getD 0
  let with_tx_data := (paramBool params 1).getD true
  let answer ← getBlockWithProofs libs node slot with_tx_data
  pure (respond id (answer.map (BlockAnswer.toJson libs)))

/-- The live slot, or else the last one on disk; 0 when there is none. -/
def liveSlot (node : Node) : UInt64 :=
  if node.stats.latest_slot > 0 then node.stats.latest_slot
  else node.file_store.latestSlot.getD 0

def handleGetSlot (node : Node) (id : UInt64) : JsonRpcResponse :=
  if liveSlot node = 0 then respond id (.error "no slots available")
  else respond id (.ok (.u64 (liveSlot node)))

def handleGetLatestSlot (node : Node) (id : UInt64) : JsonRpcResponse :=
  if liveSlot node = 0 then respond id (.error "no slots available")
  else respond id (.ok (.obj [("slot", .u64 (liveSlot node))]))

/-- The header and the message are placeholders. -/
def transactionJson (tx : Tx) : Json :=
  .obj [("signatures", signaturesJson libs (libs.signatures tx)),
    ("message", .obj [
      ("header", .obj [("numRequiredSignatures", .nat 1), ("numReadonlySignedAccounts", .nat 0),
        ("numReadonlyUnsignedAccounts", .nat 0)]),
      ("accountKeys", .arr []), ("recentBlockhash", .str ""), ("instructions", .arr [])])]

/-- One transaction of `getBlock`. -/
def blockTxJson (encoding : String) (tx : Tx) : Json :=
  let tx_field := if encoding = "json" then transactionJson libs tx
    else .arr [.str (libs.base64 (txBytes libs tx))]
  .obj [("transaction", tx_field), ("meta", .null), ("version", .str "legacy")]

def handleGetBlock (node : Node) (params : Option Json) (id : UInt64) :
    Checked JsonRpcResponse := do
  let slot := (paramU64 params 0).getD 0
  let encoding := (paramStr params 1).getD "base64"
  let answer ← withSlot libs node slot fun (txs, _) => do
    let parent_slot ← parentSlot node slot
    pure (.ok (Json.obj [("blockhash", .null), ("previousBlockhash", .null),
      ("parentSlot", .u64 parent_slot),
      ("transactions", .arr (txs.map (blockTxJson libs encoding))),
      ("blockTime", .null), ("blockHeight", .null), ("numTransactions", .nat txs.length)]))
  pure (respond id answer)

def jsonrpcHandler (node : Node) (req : JsonRpcRequest) : Checked JsonRpcResponse :=
  match req.method with
  | "getSlot" => pure (handleGetSlot node req.id)
  | "getBlock" => handleGetBlock libs node req.params req.id
  | "getLatestSlot" => pure (handleGetLatestSlot node req.id)
  | "getProof" => handleGetProof libs node req.params req.id
  | "getTransactionByIndex" => handleGetTransactionByIndex libs node req.params req.id
  | "getBlockWithProofs" => handleGetBlockWithProofs libs node req.params req.id
  | _ => pure (respond req.id (.error ("unknown method: " ++ req.method)))

/-- The status page. -/
def statsHandler (node : Node) : Json :=
  let stats := node.stats
  .obj [("latest_slot", .u64 stats.latest_slot),
    ("current_batch", .obj [("slot", .u64 stats.current_batch.slot),
      ("fec_set_index", .nat stats.current_batch.fec_set_index.toNat),
      ("data_shreds", .nat stats.current_batch.data_shreds),
      ("code_shreds", .nat stats.current_batch.code_shreds),
      ("num_data", .nat stats.current_batch.num_data),
      ("num_code", .nat stats.current_batch.num_code)]),
    ("total_blocks_recovered", .nat stats.total_blocks_recovered),
    ("blocks_in_ring_buffer", .nat stats.blocks_in_ring_buffer),
    ("files_on_disk", .nat stats.files_on_disk),
    ("latest_block_txs", .nat stats.latest_block_txs),
    ("latest_block_root", hexDigest libs stats.latest_block_root)]

/-! ### What is loaded -/

variable {libs} {node : Node} {slot : UInt64}

theorem withSlot_eq_ok {α : Type} {answer : List Tx × MerkleTree → Checked (Except String α)}
    {a : α} (h : withSlot libs node slot answer = .ok (.ok a)) :
    ∃ block, loadSlotData libs node slot = .ok (some block) ∧ answer block = .ok (.ok a) := by
  rw [withSlot] at h
  obtain ⟨loaded, hloaded, h⟩ := bind_eq_ok.mp h
  cases loaded with
  | none => cases h
  | some block => exact ⟨block, hloaded, h⟩

theorem withSlot_of_loaded {α : Type}
    {answer : List Tx × MerkleTree → Checked (Except String α)} {block : List Tx × MerkleTree}
    (h : loadSlotData libs node slot = .ok (some block)) :
    withSlot libs node slot answer = answer block := by
  rw [withSlot, h, ok_bind]

/-- A block comes from the ring buffer, or from the file store when the ring
buffer does not have the slot. -/
theorem loadSlotData_cases {block : List Tx × MerkleTree}
    (h : loadSlotData libs node slot = .ok (some block)) :
    (∃ data, node.ring_buffer.get slot = .ok (some data) ∧ loadFromRing libs data = some block) ∨
      ∃ raw result, node.ring_buffer.get slot = .ok none ∧
        node.file_store.loadSlot node.disk slot = some raw ∧
        deshredIntoTxs [raw] = .ok (some result) ∧
        block = (parseTransactions libs result.transactions,
          MerkleTree.new libs.sha256 result.transactions) := by
  rw [loadSlotData] at h
  obtain ⟨data, hdata, h⟩ := bind_eq_ok.mp h
  -- the ring buffer first, the file store only when it has no block
  cases data with
  | some data => exact .inl ⟨data, hdata, Except.ok.inj h⟩
  | none =>
    cases hraw : node.file_store.loadSlot node.disk slot with
    | none =>
      rw [hraw] at h
      cases h
    | some raw =>
      rw [hraw] at h
      obtain ⟨result, hresult, h⟩ := bind_eq_ok.mp h
      cases result with
      | none => cases h
      | some result => exact .inr ⟨raw, result, hdata, rfl, hresult, (Option.some.inj
          (Except.ok.inj h)).symm⟩

theorem loadFromRing_eq_some {data : SlotData} {block : List Tx × MerkleTree}
    (h : loadFromRing libs data = some block) :
    data.num_transactions ≠ 0 ∧ data.merkle_tree = some block.2 ∧
      ∃ entries, libs.deserializeEntries data.entries = some entries ∧
        block.1 = parseTransactions libs (entries.flatMap Entry.transactions) := by
  unfold loadFromRing at h
  split_ifs at h with hzero
  obtain ⟨tree, htree, h⟩ := Option.bind_eq_some_iff.mp h
  obtain ⟨entries, hentries, h⟩ := Option.bind_eq_some_iff.mp h
  cases h
  exact ⟨hzero, htree, entries, hentries, rfl⟩

section Tree

variable (sha256 : Bytes → Digest) {txs : List Bytes} {i : ℕ}

/-- What the tree of some transactions answers for an index. -/
theorem leafAt_new (h : i < txs.length) :
    (MerkleTree.new sha256 txs).leafAt i = sha256 txs[i] := by
  rw [MerkleTree.leafAt, MerkleTree.leaves_new, List.getElem?_map, List.getElem?_eq_getElem h]
  rfl

theorem leafAt_new_of_le (h : txs.length ≤ i) :
    (MerkleTree.new sha256 txs).leafAt i = zeroDigest := by
  rw [MerkleTree.leafAt, MerkleTree.leaves_new, List.getElem?_map, List.getElem?_eq_none h]
  rfl

theorem exists_proofAt_new (h : i < txs.length) :
    ∃ proof, (MerkleTree.new sha256 txs).proofAt i = .ok proof ∧
      MerkleTree.verify sha256 (MerkleTree.new sha256 txs).root (sha256 txs[i]) proof i
        = true := by
  obtain ⟨proof, hproof, hverify⟩ := MerkleTree.exists_prove_new sha256 h
  exact ⟨proof, by rw [MerkleTree.proofAt, hproof]; rfl, hverify⟩

theorem proofAt_new_of_le (h : txs.length ≤ i) :
    (MerkleTree.new sha256 txs).proofAt i = .ok [] := by
  rw [MerkleTree.proofAt, MerkleTree.prove_new_of_le sha256 h]
  rfl

end Tree

end Sg32
