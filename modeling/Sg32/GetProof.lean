/-
What `getProof` answers.

The ring buffer only has blocks whose tree is built over their transactions,
and a block with transactions has a root other than zero, so that `verified`
tells whether the index is in range.  A block without transactions is not
served from the ring buffer, but it is served from the file store; its root is
zero, as is the leaf that stands for a missing one.

* `run_ringBlocks` — the ring buffer after any run;
* `handleGetProof_verified_iff` — when `verified` is truthful.
-/
import Sg32.Pipeline
import Sg32.RpcServer

namespace Sg32

open Rust Bytes SlotRingBuffer

/-- The number of transactions of a block that is served. -/
def blockLength (node : Node) (slot : UInt64) : Checked (Option ℕ) := do
  let data ← node.ring_buffer.get slot
  match data with
  | some data => pure (some data.num_transactions)
  | none =>
    match node.file_store.loadSlot node.disk slot with
    | none => pure none
    | some raw => do
      let result ← deshredIntoTxs [raw]
      pure (result.map fun result => result.transactions.length)

/-! ### The ring buffer after a run -/

/-- The block has the tree over its transactions. -/
def SlotData.IsBlock (sha256 : Bytes → Digest) (data : SlotData) : Prop :=
  ∃ txs : List Bytes, data.num_transactions = txs.length ∧
    data.merkle_tree = some (MerkleTree.new sha256 txs)

structure RingBlocks (sha256 : Bytes → Digest) (buf : SlotRingBuffer) : Prop where
  capacity_ne_zero : buf.capacity ≠ 0
  isBlock : ∀ slot data, buf.stored slot = some data → data.IsBlock sha256

variable {libs : Libs} {build : Build}

theorem step_ringBlocks {node node' : Node} {delivery : Delivery}
    (hstep : processShred libs build delivery.2 node delivery.1 = .ok node')
    (h : RingBlocks libs.sha256 node.ring_buffer) : RingBlocks libs.sha256 node'.ring_buffer := by
  obtain ⟨batch, -, hcases⟩ := processShred_eq_ok hstep
  rcases hcases with ⟨-, hkeep, -⟩ | ⟨recovered, -, -, ⟨-, hkeep⟩ | ⟨result, hpublish⟩⟩
  · rw [hkeep.ring_buffer]
    exact h
  · rw [hkeep.ring_buffer]
    exact h
  · obtain ⟨hcap, hcapacity, -⟩ := put_eq_ok hpublish.put
    refine ⟨hcapacity ▸ hcap, ?_⟩
    intro slot data hdata
    rcases stored_put_cases hpublish.put hdata with ⟨-, rfl⟩ | ⟨-, hold⟩
    · exact ⟨result.transactions, rfl, rfl⟩
    · exact h.isBlock slot data hold

/-- In every state that a run reaches, the ring buffer has blocks only. -/
theorem run_ringBlocks {file_store : FlatFileStore} {disk : Disk} {stats : PipelineStats}
    {deliveries : List Delivery} {node : Node}
    (hrun : run libs build (Node.start file_store disk stats) deliveries = .ok node) :
    RingBlocks libs.sha256 node.ring_buffer := by
  refine foldlM_preserves (fun node : Node => RingBlocks libs.sha256 node.ring_buffer)
    (fun node delivery node' hstep h => step_ringBlocks hstep h) hrun
    ⟨show (500 : UInt64) ≠ 0 by decide, ?_⟩
  intro slot data hdata
  rw [Node.start, stored_new] at hdata
  cases hdata

/-! ### The answer -/

variable {Tx : Type} {rpc : RpcLibs Tx} {node : Node} {slot : UInt64}

/-- What `getProof` reports over the tree of some transactions. -/
theorem verified_new_iff {sha256 : Bytes → Digest} (hzero : ∀ bytes, sha256 bytes ≠ zeroDigest)
    {txs : List Bytes} {i : ℕ} {proof : List Digest}
    (hproof : (MerkleTree.new sha256 txs).proofAt i = .ok proof) :
    MerkleTree.verify sha256 (MerkleTree.new sha256 txs).root
        ((MerkleTree.new sha256 txs).leafAt i) proof i = true ↔
      i < txs.length ∨ txs = [] := by
  by_cases hi : i < txs.length
  · obtain ⟨proof', hproof', hverify⟩ := exists_proofAt_new sha256 hi
    cases hproof.symm.trans hproof'
    rw [leafAt_new sha256 hi, hverify]
    simp [hi]
  · have hle : txs.length ≤ i := Nat.not_lt.mp hi
    cases hproof.symm.trans (proofAt_new_of_le sha256 hle)
    rw [leafAt_new_of_le sha256 hle, MerkleTree.verify_nil]
    -- the missing leaf is zero, and so is the root of the empty tree alone
    constructor
    · intro hroot
      by_contra hnot
      exact MerkleTree.root_new_ne_zero hzero (fun hnil => hnot (.inr hnil)) hroot.symm
    · rintro (hlt | rfl)
      · exact absurd hlt hi
      · exact (MerkleTree.root_new_nil sha256).symm

theorem getProof_eq_ok {tx_index : ℕ} {answer : ProofAnswer}
    (h : getProof rpc node slot tx_index = .ok (.ok answer)) :
    ∃ block proof, loadSlotData rpc node slot = .ok (some block) ∧
      block.2.proofAt tx_index = .ok proof ∧
      answer.verified =
        MerkleTree.verify rpc.sha256 block.2.root (block.2.leafAt tx_index) proof tx_index := by
  obtain ⟨block, hblock, hanswer⟩ := withSlot_eq_ok h
  obtain ⟨proof, hproof, hanswer⟩ := bind_eq_ok.mp hanswer
  cases hanswer
  exact ⟨block, proof, hblock, hproof, rfl⟩

/-- The tree that is loaded is the one over the transactions of the block. -/
theorem blockLength_of_loaded (hring : RingBlocks rpc.sha256 node.ring_buffer)
    {block : List Tx × MerkleTree} (h : loadSlotData rpc node slot = .ok (some block)) :
    ∃ txs : List Bytes, block.2 = MerkleTree.new rpc.sha256 txs ∧
      blockLength node slot = .ok (some txs.length) := by
  rcases loadSlotData_cases h with ⟨data, hdata, hload⟩ | ⟨raw, result, hnone, hraw, hresult, rfl⟩
  · obtain ⟨-, htree, -⟩ := loadFromRing_eq_some hload
    have hstored : node.ring_buffer.stored slot = some data := by
      rw [get_eq hring.capacity_ne_zero] at hdata
      exact stored_of_contents (Except.ok.inj hdata)
    obtain ⟨txs, hlen, hnew⟩ := hring.isBlock slot data hstored
    rw [htree, Option.some.injEq] at hnew
    refine ⟨txs, hnew, ?_⟩
    rw [blockLength, hdata, ok_bind, ← hlen]
    rfl
  · refine ⟨result.transactions, rfl, ?_⟩
    rw [blockLength, hnone, ok_bind, hraw]
    simp only [hresult, ok_bind]
    rfl

theorem handleGetProof_result {params : Option Json} {id : UInt64} {response : JsonRpcResponse}
    {json : Json} (h : handleGetProof rpc node params id = .ok response)
    (hjson : response.result = some json) :
    ∃ answer, getProof rpc node ((paramU64 params 0).getD 0) ((paramU64 params 1).getD 0).toNat =
        .ok (.ok answer) ∧ json = answer.toJson rpc := by
  obtain ⟨answer, hanswer, hresponse⟩ := bind_eq_ok.mp h
  cases hresponse
  cases answer with
  | error error => cases hjson
  | ok answer =>
    cases hjson
    exact ⟨answer, hanswer, rfl⟩

/-- **When `verified` is truthful**: in every state that a run reaches and for
every slot that is served, `verified` tells whether the index is in range
exactly if the block has a transaction. -/
theorem handleGetProof_verified_iff (hzero : ∀ bytes, rpc.sha256 bytes ≠ zeroDigest)
    (build : Build) {file_store : FlatFileStore} {disk : Disk} {stats : PipelineStats}
    {deliveries : List Delivery}
    (hrun : run rpc.toLibs build (Node.start file_store disk stats) deliveries = .ok node)
    {params : Option Json} {id : UInt64} {response : JsonRpcResponse} {json : Json}
    (hresponse : handleGetProof rpc node params id = .ok response)
    (hjson : response.result = some json) :
    ∃ n, blockLength node ((paramU64 params 0).getD 0) = .ok (some n) ∧
      ((json.get "verified" = some (.bool true) ↔ ((paramU64 params 1).getD 0).toNat < n) ↔
        0 < n) := by
  obtain ⟨answer, hanswer, rfl⟩ := handleGetProof_result hresponse hjson
  obtain ⟨block, proof, hblock, hproof, hverified⟩ := getProof_eq_ok hanswer
  obtain ⟨txs, htree, hlen⟩ := blockLength_of_loaded (run_ringBlocks hrun) hblock
  refine ⟨txs.length, hlen, ?_⟩
  have hfield : (answer.toJson rpc).get "verified" = some (.bool answer.verified) := rfl
  rw [htree] at hproof hverified
  have hiff := verified_new_iff hzero hproof
  rw [← hverified] at hiff
  rw [hfield, Option.some.injEq, Json.bool.injEq, hiff, List.length_pos_iff]
  constructor
  · rintro htruth rfl
    exact absurd (htruth.mp (.inr rfl)) (Nat.not_lt_zero _)
  · intro hne
    exact ⟨fun h => h.resolve_right hne, .inl⟩

/-- Libraries that know some lists of entries and the legacy transactions of
the sample. -/
def sampleRpc (known : List (List Entry)) : RpcLibs Bytes :=
  { sampleLibs with
    deserializeEntries := fun bytes =>
      known.find? fun entries => sampleLibs.serializeEntries entries = some bytes
    deserializeTx := fun bytes => if bytes ∈ [smallTx 4, smallTx 5] then some bytes else none
    serializeTx := some
    signatures := fun _ => []
    hexEncode := fun bytes => String.ofList (bytes.flatMap fun byte =>
      [Nat.digitChar (byte.toNat / 16), Nat.digitChar (byte.toNat % 16)])
    base58 := fun _ => ""
    base64 := fun _ => "" }

theorem sampleSha256_ne_zero (bytes : Bytes) : sampleSha256 bytes ≠ zeroDigest := by
  rw [sampleSha256]
  cases hlookup : sampleDigests.lookup bytes with
  | none => decide
  | some digest =>
    obtain ⟨front, back, hsplit, -⟩ := List.lookup_eq_some_iff.mp hlookup
    have hall : ∀ known ∈ sampleDigests, known.2 ≠ zeroDigest := by decide
    exact hall (bytes, digest) (by rw [hsplit]; simp)

def sampleHeader (slot : UInt64) (fec_set_index : UInt32) (shred_variant : UInt8) :
    ShredCommonHeader where
  signature := Vector.replicate 64 0
  shred_variant := shred_variant
  slot := slot
  index := fec_set_index
  version := 1
  fec_set_index := fec_set_index

/-- A code shred that names a set of one data and one code shred, but no
position in it. -/
def namesOne (slot : UInt64) (fec_set_index : UInt32) : Shred :=
  .merkleCode (sampleHeader slot fec_set_index 0x60)
    { num_data_shreds := 1, num_coding_shreds := 1, position := 1 }
    (Vector.replicate 32 0) [] (List.replicate 1107 0)

/-- The first data shred of a set. -/
def firstData (slot : UInt64) (fec_set_index : UInt32) (payload : Bytes) : Shred :=
  .merkleData (sampleHeader slot fec_set_index 0x90)
    { parent_offset := 1, flags := 0, size := .ofNat (88 + payload.length) }
    (Vector.replicate 32 0) [] payload

/-- The deliveries of a set of one data shred. -/
def oneShred (slot : UInt64) (fec_set_index : UInt32) (payload : Bytes) : List Delivery :=
  [(namesOne slot fec_set_index, allWritten), (firstData slot fec_set_index payload, allWritten)]

/-- `getProof` of the first transaction of slot 7. -/
def paramsSeven : Option Json := some (.arr [.u64 7, .nat 0])

/-- What the handler reports, and the length of the block. -/
def reported (rpc : RpcLibs Bytes) (deliveries : List Delivery) :
    Checked (Option Bool × Option ℕ) := do
  let node ← run rpc.toLibs .debug (Node.start .empty ∅ {}) deliveries
  let response ← handleGetProof rpc node paramsSeven 1
  let n ← blockLength node 7
  pure ((response.result.bind fun json => json.get "verified").bind Json.asBool, n)

/-- A block with a transaction. -/
def fullBlock : List Delivery := oneShred 7 0 (smallStream [smallTx 4])

theorem handleGetProof_fullBlock : ∃ node response json,
    run sampleLibs .debug (Node.start .empty ∅ {}) fullBlock = .ok node ∧
      handleGetProof (sampleRpc [[smallEntry [smallTx 4]]]) node paramsSeven 1 = .ok response ∧
      response.result = some json ∧
      ∃ n, blockLength node 7 = .ok (some n) ∧
        ((json.get "verified" = some (.bool true) ↔ 0 < n) ↔ 0 < n) := by
  have hreported : reported (sampleRpc [[smallEntry [smallTx 4]]]) fullBlock =
      .ok (some true, some 1) := by decide +kernel
  obtain ⟨node, hrun, h⟩ := bind_eq_ok.mp hreported
  obtain ⟨response, hresponse, h⟩ := bind_eq_ok.mp h
  obtain ⟨n, -, h⟩ := bind_eq_ok.mp h
  cases hjson : response.result with
  | none =>
    rw [hjson] at h
    cases h
  | some json =>
    exact ⟨node, response, json, hrun, hresponse, hjson,
      handleGetProof_verified_iff sampleSha256_ne_zero .debug hrun hresponse hjson⟩

/-- A block without transactions, evicted by a block 500 slots later. -/
def emptyBlock : List Delivery :=
  oneShred 7 0 (smallStream []) ++ oneShred 507 0 (smallStream [smallTx 4])

theorem handleGetProof_emptyBlock :
    ¬ ∀ (rpc : RpcLibs Bytes) (build : Build) (deliveries : List Delivery) (node : Node)
        (params : Option Json) (id : UInt64) (response : JsonRpcResponse) (json : Json) (n : ℕ),
      (∀ bytes, rpc.sha256 bytes ≠ zeroDigest) →
      run rpc.toLibs build (Node.start .empty ∅ {}) deliveries = .ok node →
      handleGetProof rpc node params id = .ok response → response.result = some json →
      blockLength node ((paramU64 params 0).getD 0) = .ok (some n) →
      (json.get "verified" = some (.bool true) ↔ ((paramU64 params 1).getD 0).toNat < n) := by
  intro hclaim
  have hreported : reported (sampleRpc []) emptyBlock = .ok (some true, some 0) := by decide +kernel
  obtain ⟨node, hrun, h⟩ := bind_eq_ok.mp hreported
  obtain ⟨response, hresponse, h⟩ := bind_eq_ok.mp h
  obtain ⟨n, hn, h⟩ := bind_eq_ok.mp h
  obtain ⟨hverified, rfl⟩ := Prod.mk.inj (Except.ok.inj h)
  obtain ⟨value, hvalue, htrue⟩ := Option.bind_eq_some_iff.mp hverified
  obtain ⟨json, hjson, hget⟩ := Option.bind_eq_some_iff.mp hvalue
  cases value with
  | bool b =>
    cases htrue
    have hlt := (hclaim (sampleRpc []) .debug emptyBlock node paramsSeven 1 response json 0
      sampleSha256_ne_zero hrun hresponse hjson hn).mp hget
    exact absurd hlt (Nat.not_lt_zero _)
  | _ => cases htrue

end Sg32
