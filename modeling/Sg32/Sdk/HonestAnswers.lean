/-
What the client makes of an honest node (`getProofAndVerify` in the SDK's
`index.ts`, `handle_get_proof` in `rpc_server.rs`).

The client looks for the index under a name that the server does not write, and
folds as at the last position of the tree.  Without collisions only the last
transaction has a proof that leads to the root from there.

* `verify_last_iff` — which honest proofs verify at the last position;
* `acceptsHonest_iff` — of the transactions of a block, the client accepts the
  honest proof of the last one and of no other.
-/
import Sg32.MerkleSoundness
import Sg32.Sdk.Client

namespace Sg32

open MerkleFold Rust

namespace MerkleTree

variable {sha256 : Bytes → Digest} {entries : List Bytes} {index : ℕ} {proof : List Digest}

theorem length_of_prove (hindex : index < entries.length)
    (hprove : (new sha256 entries).prove index = .ok (some proof)) :
    proof.length = MerkleFold.depth entries.length := by
  obtain ⟨proof', hproof', -, hlen⟩ := exists_siblings (hashPair sha256)
    (List.getElem?_eq_getElem (show index < (entries.map sha256).length by simpa using hindex))
  rw [prove_eq_ok hindex] at hprove
  rw [Option.some.inj (hprove.symm.trans hproof'), hlen, length_layers, Nat.add_sub_cancel,
    List.length_map]

/-- **Which honest proofs verify at the last position**, if all transactions
differ: that of the last one. -/
theorem verify_last_iff (hnodup : entries.Nodup) (hindex : index < entries.length)
    (hprove : (new sha256 entries).prove index = .ok (some proof))
    (hfree : CollisionFree sha256 (entries ++ nodeInputs sha256 entries ++
      verifyInputs sha256 (sha256 entries[index]) proof (2 ^ proof.length - 1))) :
    verify sha256 (new sha256 entries).root (sha256 entries[index]) proof (2 ^ proof.length - 1) =
      true ↔ index + 1 = entries.length := by
  have hpos : 0 < entries.length := Nat.zero_lt_of_lt hindex
  have hne : entries ≠ [] := List.ne_nil_of_length_pos hpos
  have hlen := length_of_prove hindex hprove
  have hclash : NoClash (hashPair sha256) (treePairs (hashPair sha256) (entries.map sha256))
      (walkPairs (hashPair sha256) (sha256 entries[index]) proof (2 ^ proof.length - 1)) :=
    noClash_of_collisionFree hfree
      (List.Subset.trans (List.subset_append_right entries _) (List.subset_append_left _ _))
      (List.subset_append_right _ _)
  have hleaves : (entries.map sha256).length = entries.length := List.length_map _
  rw [prove_eq_ok hindex] at hprove
  rw [verify_iff hne, walk_eq_root_iff (by simpa using hne) (by rw [hlen, hleaves]) hclash, nodeAt,
    hleaves, hlen, place_last hpos, List.getElem?_map,
    List.getElem?_eq_getElem (Nat.sub_lt hpos Nat.one_pos), Option.map_some, Option.some.injEq]
  constructor
  · rintro ⟨hleaf, -⟩
    -- one digest, so one transaction, so one index
    have htx := hfree _ (by simp) _ (by simp) hleaf
    have hlast := (hnodup.getElem_inj_iff).mp htx
    omega
  · intro hlast
    have hlast : entries.length - 1 = index := by omega
    simp only [hlast]
    exact ⟨trivial, hprove⟩

end MerkleTree

namespace Sdk

open JavaScript

variable {Tx : Type} {rpc : RpcLibs Tx} {node : Node} {slot : UInt64} {result : DeshredResult}

/-- What the client hashes over the honest proof of a transaction. -/
def clientInputs (sha256 : Bytes → Digest) (txs : List Bytes) (index : ℕ) : List Bytes :=
  match (MerkleTree.new sha256 txs).proofAt index with
  | .ok proof => MerkleTree.verifyInputs sha256 ((MerkleTree.new sha256 txs).leafAt index) proof
      (2 ^ proof.length - 1)
  | .error _ => []

/-- **Which honest answers the client accepts**: of a block whose transactions
all differ, the one for the last transaction. -/
theorem acceptsHonest_iff (hhex : ∀ bytes, decodeHex (utf16 (rpc.hexEncode bytes)) = some bytes)
    (hround : ReadsBack rpc result.entries) (hblock : HasBlock rpc node slot result)
    (hnodup : result.transactions.Nodup) {index id : UInt64}
    (hindex : index.toNat < result.transactions.length)
    (hfree : MerkleTree.CollisionFree rpc.sha256 (result.transactions ++
      MerkleTree.nodeInputs rpc.sha256 result.transactions ++
      clientInputs rpc.sha256 result.transactions index.toNat))
    (hslot : slot.toNat < 2 ^ 53) (hindex' : index.toNat < 2 ^ 53) (hid : id.toNat < 2 ^ 53) :
    ∃ response value,
      handleGetProof rpc node (some (.arr [.u64 slot, .u64 index])) id = .ok response ∧
      ofResponse response = some value ∧
      (getProofAndVerify rpc.sha256 value = some true ↔
        index.toNat + 1 = result.transactions.length) := by
  have hloaded := loaded_of_hasBlock hround hblock
    (List.ne_nil_of_length_pos (Nat.zero_lt_of_lt hindex))
  obtain ⟨proof, hprove, -⟩ := MerkleTree.exists_prove_new rpc.sha256 hindex
  have hproof : (MerkleTree.new rpc.sha256 result.transactions).proofAt index.toNat =
      .ok proof := by
    rw [MerkleTree.proofAt, hprove]
    rfl
  have hleaf := leafAt_new rpc.sha256 hindex
  obtain ⟨answer, hanswer, rfl, htx, hleaf', rfl, hroot⟩ : ∃ answer,
      getProof rpc node slot index.toNat = .ok (.ok answer) ∧ answer.slot = slot ∧
        answer.tx_index = index.toNat ∧
        answer.leaf = rpc.sha256 result.transactions[index.toNat] ∧ answer.proof = proof ∧
        answer.root = (MerkleTree.new rpc.sha256 result.transactions).root := by
    rw [getProof, withSlot_of_loaded hloaded]
    simp only [hproof, hleaf, ok_bind]
    exact ⟨_, rfl, rfl, rfl, rfl, rfl, rfl⟩
  refine ⟨_, _, ?_, ofResponse_proof rpc hslot (htx ▸ hindex') hid, ?_⟩
  · show (getProof rpc node answer.slot index.toNat >>= _) = _
    rw [hanswer, ok_bind]
    rfl
  · rw [clientInputs, hproof] at hfree
    simp only [hleaf] at hfree
    rw [getProofAndVerify_iff, folds_ofAnswer rpc hhex, hleaf', hroot,
      show (ProofResult.ofAnswer rpc answer).proof.length = answer.proof.length from
        List.length_map _]
    exact MerkleTree.verify_last_iff hnodup hindex hprove hfree

theorem utf16_cons {c : Char} (h : c.toNat < 0x10000) (chars : List Char) :
    utf16 (String.ofList (c :: chars)) = UInt16.ofNat c.toNat :: utf16 (String.ofList chars) := by
  rw [utf16, utf16, String.toList_ofList, String.toList_ofList, List.flatMap_cons, if_pos h]
  rfl

theorem decodeHex_hexEncode (known : List (List Entry)) (bytes : Bytes) :
    decodeHex (utf16 ((sampleRpc known).hexEncode bytes)) = some bytes := by
  have hdigit : ∀ d < 16, hexDigit (UInt16.ofNat (Nat.digitChar d).toNat) = some d ∧
      (Nat.digitChar d).toNat < 0x10000 := by decide
  show decodeHex (utf16 (String.ofList (bytes.flatMap _))) = some bytes
  induction bytes with
  | nil => rfl
  | cons byte bytes ih =>
    have hlt := byte.toNat_lt
    obtain ⟨hhigh, hhigh'⟩ := hdigit (byte.toNat / 16) (by omega)
    obtain ⟨hlow, hlow'⟩ := hdigit (byte.toNat % 16) (by omega)
    show decodeHex (utf16 (String.ofList (_ :: _ :: bytes.flatMap _))) = _
    rw [utf16_cons hhigh', utf16_cons hlow', decodeHex, hhigh, hlow]
    simp only [Option.bind_eq_bind, Option.bind_some, ih]
    rw [show 16 * (byte.toNat / 16) + byte.toNat % 16 = byte.toNat by omega, UInt8.ofNat_toNat]

/-- The honest proof of the first of two transactions is refused. -/
theorem acceptsHonest_sample : ∃ response value,
    handleGetProof (sampleRpc [[smallEntry [smallTx 4, versionOneTx]]])
        (fileNode 7 (smallStream [smallTx 4, versionOneTx])) (some (.arr [.u64 7, .u64 0])) 1 =
      .ok response ∧ ofResponse response = some value ∧
      getProofAndVerify sampleSha256 value ≠ some true := by
  obtain ⟨response, value, hresponse, hvalue, hiff⟩ := acceptsHonest_iff
    (decodeHex_hexEncode _) (sampleRpc_readsBack _)
    (hasBlock_fileNode 7 (show deshredIntoTxs [smallStream [smallTx 4, versionOneTx]] =
      .ok (some (smallResult [smallTx 4, versionOneTx])) by decide +kernel))
    (show [smallTx 4, versionOneTx].Nodup by decide) (show (0 : UInt64).toNat < 2 by decide)
    (by decide +kernel) (by decide) (by decide) (show (1 : UInt64).toNat < 2 ^ 53 by decide)
  refine ⟨response, value, hresponse, hvalue, fun haccept => ?_⟩
  exact absurd (hiff.mp haccept) (by decide)

end Sdk

end Sg32
