/-
Transactions served together with proofs.

The tree of a block is built over all its raw transactions, but the methods
count only those that the SDK parses.  A transaction that the SDK rejects
shifts the later ones against their proofs.

* `getElem?_parseTransactions` — the indices agree as long as no rejected
  transaction comes before an accepted one;
* `allMatching_iff` — exactly then every served transaction matches its proof.
-/
import Sg32.GetProof

namespace Sg32

open Rust

variable {Tx : Type} {rpc : RpcLibs Tx} {node : Node} {slot : UInt64} {result : DeshredResult}

/-- No transaction that the SDK parses comes after one that it rejects. -/
def AcceptedFirst (rpc : RpcLibs Tx) (txs : List Bytes) : Prop :=
  txs.Pairwise fun earlier later =>
    (rpc.deserializeTx later).isSome → (rpc.deserializeTx earlier).isSome

/-- The served bytes are the transaction at the index, the leaf is their
digest, and the proof verifies them there. -/
structure Matching (sha256 : Bytes → Digest) (txs : List Bytes) (i : ℕ) (tx : Bytes)
    (leaf : Digest) (proof : List Digest) : Prop where
  leaf_eq : leaf = sha256 tx
  position : txs[i]? = some tx
  verifies : MerkleTree.verify sha256 (MerkleTree.new sha256 txs).root leaf proof i = true

/-- The node has the block with this content: in the ring buffer, as
`process_shred` publishes it, or in the file store only. -/
inductive HasBlock (rpc : RpcLibs Tx) (node : Node) (slot : UInt64) (result : DeshredResult) :
    Prop
  | ring (recovered : List Bytes) (batch : FecBatch)
      (deshred : deshredIntoTxs recovered = .ok (some result))
      (get : node.ring_buffer.get slot = .ok (some (slotData rpc.toLibs batch result)))
  | file (raw : Bytes) (get : node.ring_buffer.get slot = .ok none)
      (load : node.file_store.loadSlot node.disk slot = some raw)
      (deshred : deshredIntoTxs [raw] = .ok (some result))

/-- Every transaction that is served for the slot matches its proof, by itself
and as a part of the block. -/
structure AllMatching (rpc : RpcLibs Tx) (node : Node) (slot : UInt64) (txs : List Bytes) :
    Prop where
  byIndex : ∀ i answer, getTransactionByIndex rpc node slot i = .ok (.ok answer) →
    Matching rpc.sha256 txs i answer.transaction answer.leaf answer.proof
  inBlock : ∀ with_tx_data answer,
    getBlockWithProofs rpc node slot with_tx_data = .ok (.ok answer) →
    ∀ tx ∈ answer.transactions, ∀ bytes, tx.transaction = some bytes →
      Matching rpc.sha256 txs tx.index bytes tx.leaf tx.proof

/-! ### Indices -/

/-- When a transaction is rejected, all later ones are. -/
theorem parseTransactions_of_rejected {tx : Bytes} {txs : List Bytes}
    (hrejected : rpc.deserializeTx tx = none) (h : AcceptedFirst rpc (tx :: txs)) :
    parseTransactions rpc txs = [] := by
  refine List.filterMap_eq_nil_iff.mpr ?_
  intro later hlater
  have hfirst := (List.pairwise_cons.mp h).1 later hlater
  cases hparsed : rpc.deserializeTx later with
  | none => rfl
  | some parsed =>
    rw [hparsed, hrejected] at hfirst
    cases hfirst rfl

/-- The indices agree when the accepted transactions come first. -/
theorem getElem?_parseTransactions {txs : List Bytes} (h : AcceptedFirst rpc txs) {i : ℕ} {tx : Tx}
    (htx : (parseTransactions rpc txs)[i]? = some tx) :
    ∃ bytes, txs[i]? = some bytes ∧ rpc.deserializeTx bytes = some tx := by
  induction txs generalizing i with
  | nil => cases htx
  | cons first txs ih =>
    -- after a rejected transaction all are rejected, so no index shifts
    cases hparsed : rpc.deserializeTx first with
    | none =>
      rw [parseTransactions, List.filterMap_cons_none hparsed] at htx
      have hnil : txs.filterMap rpc.deserializeTx = [] := parseTransactions_of_rejected hparsed h
      rw [hnil] at htx
      cases htx
    | some parsed =>
      rw [parseTransactions, List.filterMap_cons_some hparsed] at htx
      cases i with
      | zero =>
        cases htx
        exact ⟨first, rfl, hparsed⟩
      | succ i => exact ih (List.pairwise_cons.mp h).2 htx

/-- Otherwise some served index belongs to a rejected transaction. -/
theorem exists_shifted {txs : List Bytes} (h : ¬ AcceptedFirst rpc txs) :
    ∃ (i : ℕ) (tx : Tx) (bytes : Bytes), (parseTransactions rpc txs)[i]? = some tx ∧
      txs[i]? = some bytes ∧ rpc.deserializeTx bytes = none := by
  induction txs with
  | nil => exact absurd List.Pairwise.nil h
  | cons first txs ih =>
    cases hparsed : rpc.deserializeTx first with
    | none =>
      -- a rejected transaction before an accepted one
      have hlater : parseTransactions rpc (first :: txs) ≠ [] := by
        intro hnil
        refine h (List.pairwise_of_forall_mem_list fun earlier _ later hmem haccepted => ?_)
        have hnone := List.filterMap_eq_nil_iff.mp hnil later hmem
        rw [hnone] at haccepted
        cases haccepted
      obtain ⟨tx, rest, hcons⟩ := List.exists_cons_of_ne_nil hlater
      exact ⟨0, tx, first, by rw [hcons]; rfl, rfl, hparsed⟩
    | some parsed =>
      have hrest : ¬ AcceptedFirst rpc txs := by
        intro hrest
        refine h (List.pairwise_cons.mpr ⟨fun later _ _ => ?_, hrest⟩)
        rw [hparsed]
        rfl
      obtain ⟨i, tx, bytes, htx, hbytes, hrejected⟩ := ih hrest
      refine ⟨i + 1, tx, bytes, ?_, hbytes, hrejected⟩
      rw [parseTransactions, List.filterMap_cons_some hparsed]
      exact htx

/-! ### Answers -/

/-- `bincode` reads back the entries that it wrote. -/
def ReadsBack (rpc : RpcLibs Tx) (entries : List Entry) : Prop :=
  ∃ bytes, rpc.serializeEntries entries = some bytes ∧ rpc.deserializeEntries bytes = some entries

/-- A served block is loaded with all its transactions. -/
theorem loaded_of_hasBlock (hround : ReadsBack rpc result.entries)
    (h : HasBlock rpc node slot result) (hne : result.transactions ≠ []) :
    loadSlotData rpc node slot = .ok (some (parseTransactions rpc result.transactions,
      MerkleTree.new rpc.sha256 result.transactions)) := by
  -- from the ring buffer the entries are read back, from a file they are cut again
  cases h with
  | ring recovered batch hdeshred hget =>
    obtain ⟨bytes, hwrite, hread⟩ := hround
    have hcount : (slotData rpc.toLibs batch result).num_transactions ≠ 0 := by
      show result.transactions.length ≠ 0
      simpa using hne
    have hentries : (slotData rpc.toLibs batch result).entries = bytes := by
      show (rpc.serializeEntries result.entries).getD [] = bytes
      rw [hwrite, Option.getD_some]
    have htree : (slotData rpc.toLibs batch result).merkle_tree =
        some (MerkleTree.new rpc.sha256 result.transactions) := rfl
    simp only [loadSlotData, hget, ok_bind, loadFromRing, if_neg hcount, htree, hentries, hread]
    rw [transactions_of_deshred hdeshred]
    rfl
  | file raw hget hload hdeshred =>
    rw [loadSlotData, hget, ok_bind, hload]
    simp only [loadFromFile, hdeshred, ok_bind]
    rfl

/-- What is loaded, when something is. -/
theorem block_of_hasBlock (hround : ReadsBack rpc result.entries)
    (h : HasBlock rpc node slot result) {block : List Tx × MerkleTree}
    (hblock : loadSlotData rpc node slot = .ok (some block)) :
    block = (parseTransactions rpc result.transactions,
      MerkleTree.new rpc.sha256 result.transactions) := by
  by_cases hne : result.transactions = []
  · cases h with
    | ring recovered batch hdeshred hget =>
      have hcount : (slotData rpc.toLibs batch result).num_transactions = 0 := by
        show result.transactions.length = 0
        rw [hne, List.length_nil]
      simp only [loadSlotData, hget, ok_bind, loadFromRing, if_pos hcount] at hblock
      cases hblock
    | file raw hget hload hdeshred =>
      rw [loadSlotData, hget, ok_bind, hload] at hblock
      simp only [loadFromFile, hdeshred, ok_bind] at hblock
      cases hblock
      rfl
  · rw [loaded_of_hasBlock hround h hne] at hblock
    exact (Option.some.inj (Except.ok.inj hblock)).symm

theorem getTransactionByIndex_eq_ok {i : ℕ} {answer : TransactionAnswer}
    (h : getTransactionByIndex rpc node slot i = .ok (.ok answer)) :
    ∃ block tx, loadSlotData rpc node slot = .ok (some block) ∧ block.1[i]? = some tx ∧
      answer.transaction = txBytes rpc tx ∧ answer.leaf = block.2.leafAt i ∧
      block.2.proofAt i = .ok answer.proof := by
  obtain ⟨block, hblock, hanswer⟩ := withSlot_eq_ok h
  cases htx : block.1[i]? with
  | none =>
    simp only [htx] at hanswer
    cases hanswer
  | some tx =>
    simp only [htx] at hanswer
    obtain ⟨proof, hproof, hanswer⟩ := bind_eq_ok.mp hanswer
    cases hanswer
    exact ⟨block, tx, hblock, htx, rfl, rfl, hproof⟩

/-- An index of a parsed transaction is answered. -/
theorem exists_getTransactionByIndex {i : ℕ} {block : List Tx × MerkleTree} {tx : Tx}
    {proof : List Digest} (hload : loadSlotData rpc node slot = .ok (some block))
    (htx : block.1[i]? = some tx) (hproof : block.2.proofAt i = .ok proof) :
    ∃ answer, getTransactionByIndex rpc node slot i = .ok (.ok answer) ∧
      answer.transaction = txBytes rpc tx := by
  rw [getTransactionByIndex, withSlot_of_loaded hload]
  simp only [htx, hproof, ok_bind]
  exact ⟨_, rfl, rfl⟩

theorem getBlockWithProofs_eq_ok {with_tx_data : Bool} {answer : BlockAnswer}
    (h : getBlockWithProofs rpc node slot with_tx_data = .ok (.ok answer)) {served : TxWithProof}
    (hserved : served ∈ answer.transactions) {bytes : Bytes}
    (hbytes : served.transaction = some bytes) :
    ∃ block tx, loadSlotData rpc node slot = .ok (some block) ∧
      block.1[served.index]? = some tx ∧ bytes = txBytes rpc tx ∧
      served.leaf = block.2.leafAt served.index ∧
      block.2.proofAt served.index = .ok served.proof := by
  obtain ⟨block, hblock, hanswer⟩ := withSlot_eq_ok h
  obtain ⟨tx_objects, hobjects, hanswer⟩ := bind_eq_ok.mp hanswer
  obtain ⟨parent_slot, -, hanswer⟩ := bind_eq_ok.mp hanswer
  cases hanswer
  obtain ⟨⟨tx, i⟩, hmem, hobject⟩ := exists_of_mem_mapM hobjects hserved
  obtain ⟨proof, hproof, hobject⟩ := bind_eq_ok.mp hobject
  cases hobject
  have htx := List.mk_mem_zipIdx_iff_getElem?.mp hmem
  cases with_tx_data with
  | false => cases hbytes
  | true =>
    cases hbytes
    exact ⟨block, tx, hblock, htx, rfl, rfl, hproof⟩

/-- The transaction served at an index, when the accepted ones come first. -/
theorem matching_of_acceptedFirst
    (hcodec : ∀ bytes tx, rpc.deserializeTx bytes = some tx → rpc.serializeTx tx = some bytes)
    {txs : List Bytes} (hfirst : AcceptedFirst rpc txs) {i : ℕ} {tx : Tx} {proof : List Digest}
    (htx : (parseTransactions rpc txs)[i]? = some tx)
    (hproof : (MerkleTree.new rpc.sha256 txs).proofAt i = .ok proof) :
    Matching rpc.sha256 txs i (txBytes rpc tx) ((MerkleTree.new rpc.sha256 txs).leafAt i)
      proof := by
  obtain ⟨bytes, hbytes, hparsed⟩ := getElem?_parseTransactions hfirst htx
  obtain ⟨hi, hget⟩ := List.getElem?_eq_some_iff.mp hbytes
  obtain ⟨proof', hproof', hverify⟩ := exists_proofAt_new rpc.sha256 hi
  cases hproof.symm.trans hproof'
  have hserved : txBytes rpc tx = bytes := by
    rw [txBytes, hcodec bytes tx hparsed, Option.getD_some]
  have hleaf := leafAt_new rpc.sha256 hi
  rw [hget] at hleaf hverify
  exact ⟨by rw [hserved, hleaf], by rw [hserved, hbytes], by rw [hleaf, hverify]⟩

/-- **Served transactions match their proofs** exactly if no transaction that
the SDK parses comes after one that it rejects. -/
theorem allMatching_iff
    (hcodec : ∀ bytes tx, rpc.deserializeTx bytes = some tx → rpc.serializeTx tx = some bytes)
    (hround : ReadsBack rpc result.entries) (hblock : HasBlock rpc node slot result) :
    AllMatching rpc node slot result.transactions ↔ AcceptedFirst rpc result.transactions := by
  constructor
  · intro hall
    by_contra hnot
    obtain ⟨i, tx, bytes, htx, hbytes, hrejected⟩ := exists_shifted hnot
    have hi := (List.getElem?_eq_some_iff.mp hbytes).choose
    have hloaded := loaded_of_hasBlock hround hblock (List.ne_nil_of_length_pos (by omega))
    obtain ⟨proof, hproof, -⟩ := exists_proofAt_new rpc.sha256 hi
    -- the index is answered, with a transaction that the SDK parses
    obtain ⟨answer, hanswer, htransaction⟩ := exists_getTransactionByIndex hloaded htx hproof
    have hposition := (hall.byIndex i answer hanswer).position
    rw [hbytes, Option.some.injEq, htransaction] at hposition
    obtain ⟨raw, -, hparsed⟩ := List.mem_filterMap.mp (List.mem_of_getElem? htx)
    have hraw : txBytes rpc tx = raw := by
      rw [txBytes, hcodec raw tx hparsed, Option.getD_some]
    rw [hposition, hraw, hparsed] at hrejected
    cases hrejected
  · intro hfirst
    refine ⟨fun i answer hanswer => ?_, fun with_tx_data answer hanswer served hserved bytes hbytes
      => ?_⟩
    · obtain ⟨block, tx, hload, htx, htransaction, hleaf, hproof⟩ :=
        getTransactionByIndex_eq_ok hanswer
      cases block_of_hasBlock hround hblock hload
      rw [htransaction, hleaf]
      exact matching_of_acceptedFirst hcodec hfirst htx hproof
    · obtain ⟨block, tx, hload, htx, htransaction, hleaf, hproof⟩ :=
        getBlockWithProofs_eq_ok hanswer hserved hbytes
      cases block_of_hasBlock hround hblock hload
      rw [htransaction, hleaf]
      exact matching_of_acceptedFirst hcodec hfirst htx hproof

/-- A node with one block in its file store. -/
def fileNode (slot : UInt64) (payload : Bytes) : Node :=
  let (file_store, disk, _) := FlatFileStore.empty.saveSlot ∅ slot payload .written .written
  Node.start file_store disk {}

def smallResult (txs : List Bytes) : DeshredResult where
  entries := [smallEntry txs]
  transactions := txs

theorem sampleRpc_codec (known : List (List Entry)) (bytes tx : Bytes)
    (h : (sampleRpc known).deserializeTx bytes = some tx) :
    (sampleRpc known).serializeTx tx = some bytes := by
  have hif : (if bytes ∈ [smallTx 4, smallTx 5] then some bytes else none) = some tx := h
  split_ifs at hif
  exact hif.symm

theorem sampleRpc_readsBack (entries : List Entry) :
    ReadsBack (sampleRpc [entries]) entries := by
  have hread : [entries].find? (fun other =>
      sampleLibs.serializeEntries other = sampleLibs.serializeEntries entries) = some entries :=
    List.find?_cons_of_pos (decide_eq_true rfl)
  exact ⟨_, rfl, hread⟩

theorem hasBlock_fileNode (slot : UInt64) {txs : List Bytes}
    (h : deshredIntoTxs [smallStream txs] = .ok (some (smallResult txs))) :
    HasBlock (sampleRpc [(smallResult txs).entries]) (fileNode slot (smallStream txs)) slot
      (smallResult txs) := by
  refine .file (smallStream txs) ?_ ?_ h
  · rw [SlotRingBuffer.get_eq (show (500 : UInt64) ≠ 0 by decide)]
    exact congrArg Except.ok (SlotRingBuffer.contents_new 500 slot)
  · have hsaved : (FlatFileStore.empty.saveSlot ∅ slot (smallStream txs) .written
        .written).2.2 = true := rfl
    have hload := FlatFileStore.loadSlot_saveSlot FlatFileStore.wellNamed_empty hsaved slot
    rwa [if_pos rfl] at hload

/-- An accepted transaction before a rejected one. -/
theorem allMatching_sample :
    AcceptedFirst (sampleRpc [[smallEntry [smallTx 4, versionOneTx]]])
        [smallTx 4, versionOneTx] ∧
      AllMatching (sampleRpc [[smallEntry [smallTx 4, versionOneTx]]])
        (fileNode 7 (smallStream [smallTx 4, versionOneTx])) 7 [smallTx 4, versionOneTx] := by
  have hdeshred : deshredIntoTxs [smallStream [smallTx 4, versionOneTx]] =
      .ok (some (smallResult [smallTx 4, versionOneTx])) := by decide +kernel
  have hfirst : AcceptedFirst (sampleRpc [[smallEntry [smallTx 4, versionOneTx]]])
      [smallTx 4, versionOneTx] := by
    unfold AcceptedFirst
    decide +kernel
  have hblock := hasBlock_fileNode 7 hdeshred
  exact ⟨hfirst,
    (allMatching_iff (sampleRpc_codec _) (sampleRpc_readsBack _) hblock).mpr hfirst⟩

/-- An answer, from what is read of it. -/
theorem exists_answer {α β : Type} {c : Checked (Except String α)} {f : α → β} {b : β}
    (h : c.map (fun answer => answer.toOption.map f) = .ok (some b)) :
    ∃ a, c = .ok (.ok a) ∧ f a = b := by
  rcases c with panic | error | a
  · cases h
  · cases h
  · exact ⟨a, rfl, Option.some.inj (Except.ok.inj h)⟩

/-- A rejected transaction before an accepted one. -/
theorem getTransactionByIndex_shifted :
    ¬ ∀ (rpc : RpcLibs Bytes) (node : Node) (slot : UInt64) (result : DeshredResult),
      (∀ bytes tx, rpc.deserializeTx bytes = some tx → rpc.serializeTx tx = some bytes) →
      ReadsBack rpc result.entries → HasBlock rpc node slot result →
      ∀ i answer, getTransactionByIndex rpc node slot i = .ok (.ok answer) →
        answer.leaf = rpc.sha256 answer.transaction ∧
          ∃ position, result.transactions[position]? = some answer.transaction ∧
            MerkleTree.verify rpc.sha256 (MerkleTree.new rpc.sha256 result.transactions).root
              answer.leaf answer.proof position = true := by
  intro hclaim
  obtain ⟨answer, hanswer, hfields⟩ := exists_answer (b := (smallTx 4, versionOneDigest))
    (f := fun answer : TransactionAnswer => (answer.transaction, answer.leaf))
    (c := getTransactionByIndex (sampleRpc [[smallEntry [versionOneTx, smallTx 4]]])
      (fileNode 7 (smallStream [versionOneTx, smallTx 4])) 7 0) (by decide +kernel)
  obtain ⟨htransaction, hleaf⟩ := Prod.mk.inj hfields
  have heq := (hclaim _ _ 7 (smallResult [versionOneTx, smallTx 4]) (sampleRpc_codec _)
    (sampleRpc_readsBack _) (hasBlock_fileNode 7 (by decide +kernel)) 0 answer hanswer).1
  rw [htransaction, hleaf] at heq
  exact absurd heq (by decide +kernel)

end Sg32
