/-
Merkle trees over the transactions of a block (`merkle_prover.rs`).

The leaves are the digests of the transactions; a proof lists the sibling of
each node on the way up.  The hash function is a parameter.

* `exists_prove_new` — every transaction has a proof, and the proof verifies;
* `root_new_ne_zero` — only a tree without leaves has the root of zeros.
-/
import Sg32.Foundation.Bytes
import Sg32.Foundation.MerkleFold
import Sg32.Foundation.Panic

namespace Sg32

open Rust

abbrev Digest := Vector UInt8 32

/-- `[0u8; 32]`. -/
def zeroDigest : Digest := Vector.replicate 32 0

structure MerkleTree where
  root : Digest
  leaves : List Digest
  layers : List (List Digest)
  layers_ne_nil : layers ≠ []
  deriving DecidableEq

namespace MerkleTree

variable (sha256 : Bytes → Digest)

/-- The hash of two nodes, one after the other. -/
def hashPair (left right : Digest) : Digest := sha256 (left.toList ++ right.toList)

def new (entries : List Bytes) : MerkleTree where
  root := (MerkleFold.root (hashPair sha256) (entries.map sha256)).getD zeroDigest
  leaves := entries.map sha256
  layers := MerkleFold.layers (hashPair sha256) (entries.map sha256)
  layers_ne_nil := MerkleFold.layers_ne_nil _ _

/-- The siblings on the way up from a leaf; each is read by its index. -/
def prove (tree : MerkleTree) (index : ℕ) : Checked (Option (List Digest)) :=
  if index ≥ tree.leaves.length then pure none
  else
    match MerkleFold.siblings tree.layers.dropLast index with
    | some proof => pure (some proof)
    | none => .error .indexOutOfBounds

def verify (root leaf : Digest) (proof : List Digest) (index : ℕ) : Bool :=
  MerkleFold.walk (hashPair sha256) leaf proof index = root

@[simp] theorem leaves_new (entries : List Bytes) :
    (new sha256 entries).leaves = entries.map sha256 := rfl

theorem root_new_nil : (new sha256 []).root = zeroDigest := by
  have hroot : MerkleFold.root (hashPair sha256) [] = none := by
    rw [MerkleFold.root, MerkleFold.layers_of_le (by simp)]
    rfl
  show (MerkleFold.root (hashPair sha256) []).getD zeroDigest = zeroDigest
  rw [hroot, Option.getD_none]

variable {entries : List Bytes} {index : ℕ}

theorem prove_new_of_le (h : entries.length ≤ index) :
    (new sha256 entries).prove index = .ok none := by
  rw [prove, leaves_new, List.length_map, if_pos h]
  rfl

/-- **Every transaction has a proof that verifies.** -/
theorem exists_prove_new (h : index < entries.length) :
    ∃ proof, (new sha256 entries).prove index = .ok (some proof) ∧
      verify sha256 (new sha256 entries).root (sha256 entries[index]) proof index = true := by
  have hleaf : (entries.map sha256)[index]? = some (sha256 entries[index]) := by
    rw [List.getElem?_map, List.getElem?_eq_getElem h, Option.map_some]
  obtain ⟨proof, hproof, hroot, -⟩ := MerkleFold.exists_siblings (hashPair sha256) hleaf
  refine ⟨proof, ?_, ?_⟩
  · have hlayers : (new sha256 entries).layers =
        MerkleFold.layers (hashPair sha256) (entries.map sha256) := rfl
    rw [prove, leaves_new, List.length_map, if_neg (by omega), hlayers, hproof]
    rfl
  · rw [verify, decide_eq_true_iff, new, hroot, Option.getD_some]

/-- The root of a tree with leaves is a digest. -/
theorem exists_root_new (h : entries ≠ []) : ∃ bytes, (new sha256 entries).root = sha256 bytes := by
  have hne : entries.map sha256 ≠ [] := by simpa using h
  obtain ⟨top, htop, hdigest⟩ := MerkleFold.exists_root (hashPair sha256) hne
  have hroot : (new sha256 entries).root = top := by rw [new, htop, Option.getD_some]
  rw [hroot]
  rcases hdigest with hmem | ⟨left, right, rfl⟩
  · obtain ⟨bytes, -, rfl⟩ := List.mem_map.mp hmem
    exact ⟨bytes, rfl⟩
  · exact ⟨left.toList ++ right.toList, rfl⟩

variable {sha256}

/-- Only a tree without leaves has the root of zeros. -/
theorem root_new_ne_zero (hzero : ∀ bytes, sha256 bytes ≠ zeroDigest) (h : entries ≠ []) :
    (new sha256 entries).root ≠ zeroDigest := by
  obtain ⟨bytes, hroot⟩ := exists_root_new sha256 h
  rw [hroot]
  exact hzero bytes

/-- Without siblings only the root itself verifies. -/
theorem verify_nil (root leaf : Digest) (index : ℕ) :
    verify sha256 root leaf [] index = true ↔ leaf = root := by
  rw [verify, decide_eq_true_iff, MerkleFold.walk]

end MerkleTree

end Sg32
