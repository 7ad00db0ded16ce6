/-
What Merkle proofs and roots prove (`merkle_prover.rs`).

A proof does not say how high its tree is or what it starts from, the hash of
a leaf looks like the hash of two nodes, and an odd layer repeats its last
node.  No hash function without collisions exists, so what is assumed is that
the byte strings that were hashed do not collide.

* `prove_complete` — every transaction has a proof that verifies;
* `verify_binding` — a proof of the right length at a transaction's index is
  the proof of that transaction;
* `verify_shape_iff` — which proofs verify although their index or their length
  is wrong;
* `root_commits_iff` — which lists have one root although they differ.
-/
import Sg32.Foundation.MerkleBinding
import Sg32.MerkleProver

namespace Sg32.MerkleTree

open Rust MerkleFold

/-! ### What is hashed -/

/-- No two of the byte strings have the same digest. -/
def CollisionFree (sha256 : Bytes → Digest) (inputs : List Bytes) : Prop :=
  ∀ a ∈ inputs, ∀ b ∈ inputs, sha256 a = sha256 b → a = b

instance (sha256 : Bytes → Digest) (inputs : List Bytes) :
    Decidable (CollisionFree sha256 inputs) :=
  inferInstanceAs (Decidable (∀ a ∈ inputs, ∀ b ∈ inputs, sha256 a = sha256 b → a = b))

/-- Two nodes, as they are hashed. -/
def pairBytes (pair : Digest × Digest) : Bytes := pair.1.toList ++ pair.2.toList

variable (sha256 : Bytes → Digest)

/-- What `new` hashes for the nodes above the leaves. -/
def nodeInputs (entries : List Bytes) : List Bytes :=
  (treePairs (hashPair sha256) (entries.map sha256)).map pairBytes

/-- What `verify` hashes. -/
def verifyInputs (leaf : Digest) (proof : List Digest) (index : ℕ) : List Bytes :=
  (walkPairs (hashPair sha256) leaf proof index).map pairBytes

/-- What is hashed for the layer `j` steps above the leaves. -/
def layerInputs (entries : List Bytes) : ℕ → List Bytes
  | 0 => entries
  | j + 1 => (layerPairs (layerAt (hashPair sha256) (entries.map sha256) j)).map pairBytes

/-- The number of layers above the leaves. -/
def depth (tree : MerkleTree) : ℕ := tree.layers.length - 1

variable {sha256} {entries : List Bytes}

theorem hashPair_eq (pair : Digest × Digest) :
    hashPair sha256 pair.1 pair.2 = sha256 (pairBytes pair) := rfl

theorem pairBytes_injective : Function.Injective pairBytes := by
  rintro ⟨a, b⟩ ⟨c, d⟩ heq
  have hlen : a.toList.length = c.toList.length := by simp
  obtain ⟨hac, hbd⟩ := List.append_inj heq hlen
  exact Prod.ext (Vector.toList_inj.mp hac) (Vector.toList_inj.mp hbd)

theorem CollisionFree.mono {inputs inputs' : List Bytes} (hfree : CollisionFree sha256 inputs)
    (hsub : inputs' ⊆ inputs) : CollisionFree sha256 inputs' :=
  fun a ha b hb => hfree a (hsub ha) b (hsub hb)

/-- Pairs do not clash when their byte strings do not collide. -/
theorem noClash_of_collisionFree {ps qs : List (Digest × Digest)} {inputs : List Bytes}
    (hfree : CollisionFree sha256 inputs) (hps : ps.map pairBytes ⊆ inputs)
    (hqs : qs.map pairBytes ⊆ inputs) : NoClash (hashPair sha256) ps qs := by
  intro p hp q hq heq
  refine pairBytes_injective (hfree _ (hps (List.mem_map_of_mem hp)) _
    (hqs (List.mem_map_of_mem hq)) ?_)
  rwa [hashPair_eq, hashPair_eq] at heq

/-- A layer has the digests of what was hashed for it. -/
theorem layerAt_eq_map (j : ℕ) :
    layerAt (hashPair sha256) (entries.map sha256) j =
      (layerInputs sha256 entries j).map sha256 := by
  cases j with
  | zero => rfl
  | succ j =>
    rw [layerAt_succ', pairUp_eq_map, layerInputs, List.map_map]
    rfl

theorem layerInputs_subset (hne : entries ≠ []) {j : ℕ}
    (hj : j ≤ MerkleFold.depth entries.length) :
    layerInputs sha256 entries j ⊆ entries ++ nodeInputs sha256 entries := by
  cases j with
  | zero => exact List.subset_append_left _ _
  | succ j =>
    have hleaves : entries.map sha256 ≠ [] := by simpa using hne
    obtain ⟨-, -, hdepth, hpairs⟩ := layerAt_spec (h := hashPair sha256) hleaves
      (show j ≤ MerkleFold.depth (entries.map sha256).length by rw [List.length_map]; omega)
    rw [List.length_map] at hdepth
    -- the layer has a layer above it, so its pairs are pairs of the tree
    have hlt : 1 < (layerAt (hashPair sha256) (entries.map sha256) j).length := by
      by_contra hle
      rw [depth_of_le (by omega)] at hdepth
      omega
    rw [treePairs_of_lt hlt] at hpairs
    refine List.Subset.trans (List.map_subset _ ?_) (List.subset_append_right _ _)
    exact List.Subset.trans (List.subset_append_left _ _) hpairs

/-! ### Two transactions -/

def txOne : Bytes := [1]

def txTwo : Bytes := [2]

/-- A digest, written as a number. -/
def digestOf (n : ℕ) : Digest := Vector.ofFn fun i => UInt8.ofNat (n >>> (8 * (31 - i.val)))

def digestOne : Digest :=
  digestOf 0x4bf5122f344554c53bde2ebb8cd2b7e3d1600ad631c385a5d7cce23c7785459a

def digestTwo : Digest :=
  digestOf 0xdbc1b4c900ffe48d575b5da5c638040125f65db0fe3e24494b76ea986457d986

def digestOneTwo : Digest :=
  digestOf 0x42dbeeb4eb5d41bbdc93732c6a87ab3241ee03f44a0780a52ddf831f5fd88b53

def digestTwoTwo : Digest :=
  digestOf 0x3d14fb6d40142d70f29f15b3f6419554d61e260ae6f15929f0fd7f0f7f7ab4d1

/-- SHA-256 of the two transactions and of the nodes above them. -/
def knownDigests : List (Bytes × Digest) :=
  [(txOne, digestOne), (txTwo, digestTwo), (pairBytes (digestOne, digestTwo), digestOneTwo),
    (pairBytes (digestTwo, digestTwo), digestTwoTwo),
    (pairBytes (digestOneTwo, digestTwoTwo),
      digestOf 0xd607ef52d53d31ce18cc73c126f7511a82a079dc3eef15ec1a7024bb0c7bf177)]

/-- The digests above, and some digest for everything else. -/
def knownSha256 (bytes : Bytes) : Digest :=
  (knownDigests.lookup bytes).getD (Vector.replicate 32 1)

/-! ### Completeness -/

/-- The root of a tree with leaves is the node at the top. -/
theorem root_new (hne : entries ≠ []) :
    MerkleFold.root (hashPair sha256) (entries.map sha256) = some (new sha256 entries).root := by
  obtain ⟨top, htop, -⟩ := MerkleFold.exists_root (hashPair sha256)
    (show entries.map sha256 ≠ [] by simpa using hne)
  rw [htop, new, htop, Option.getD_some]

theorem verify_iff (hne : entries ≠ []) (leaf : Digest) (proof : List Digest) (index : ℕ) :
    verify sha256 (new sha256 entries).root leaf proof index = true ↔
      MerkleFold.root (hashPair sha256) (entries.map sha256) =
        some (walk (hashPair sha256) leaf proof index) := by
  rw [verify, decide_eq_true_iff, root_new hne, Option.some.injEq, eq_comm]

theorem prove_eq_ok {index : ℕ} (hindex : index < entries.length) {proof : List Digest} :
    (new sha256 entries).prove index = .ok (some proof) ↔
      siblings (MerkleFold.layers (hashPair sha256) (entries.map sha256)).dropLast index =
        some proof := by
  have hlayers : (new sha256 entries).layers =
      MerkleFold.layers (hashPair sha256) (entries.map sha256) := rfl
  rw [prove, leaves_new, List.length_map, if_neg (by omega), hlayers]
  cases siblings (MerkleFold.layers (hashPair sha256) (entries.map sha256)).dropLast index with
  | none => simp
  | some siblings => simp [pure, Except.pure]

/-- **Merkle completeness**: every transaction has a proof with one sibling for
each layer below the root, and the proof verifies. -/
theorem prove_complete (sha256 : Bytes → Digest) {entries : List Bytes} {index : ℕ}
    (hindex : index < entries.length) :
    ∃ leaf proof, (new sha256 entries).leaves[index]? = some leaf ∧
      (new sha256 entries).prove index = .ok (some proof) ∧
      proof.length = (new sha256 entries).depth ∧
      verify sha256 (new sha256 entries).root leaf proof index = true := by
  have hleaf : (entries.map sha256)[index]? = some (sha256 entries[index]) := by
    rw [List.getElem?_map, List.getElem?_eq_getElem hindex, Option.map_some]
  have hne : entries ≠ [] := List.ne_nil_of_length_pos (by omega)
  obtain ⟨proof, hproof, hroot, hlen⟩ := exists_siblings (hashPair sha256) hleaf
  exact ⟨_, proof, hleaf, (prove_eq_ok hindex).mpr hproof, hlen, (verify_iff hne _ _ _).mpr hroot⟩

theorem prove_complete_two :
    ∃ leaf proof, (new knownSha256 [txOne, txTwo, txTwo]).leaves[2]? = some leaf ∧
      (new knownSha256 [txOne, txTwo, txTwo]).prove 2 = .ok (some proof) ∧
      proof.length = (new knownSha256 [txOne, txTwo, txTwo]).depth ∧
      verify knownSha256 (new knownSha256 [txOne, txTwo, txTwo]).root leaf proof 2 = true :=
  prove_complete knownSha256 (by decide)

/-! ### Binding -/

/-- **Merkle value binding**: at a transaction's index, and with as many
siblings as its proof has, only its own digest and proof verify. -/
theorem verify_binding {entries : List Bytes} {index : ℕ} (hindex : index < entries.length)
    {honest : List Digest} (hprove : (new sha256 entries).prove index = .ok (some honest))
    {leaf : Digest} {proof : List Digest} (hlen : proof.length = honest.length)
    (hfree : CollisionFree sha256
      (nodeInputs sha256 entries ++ verifyInputs sha256 leaf proof index))
    (haccept : verify sha256 (new sha256 entries).root leaf proof index = true) :
    (new sha256 entries).leaves[index]? = some leaf ∧ proof = honest := by
  have hne : entries ≠ [] := List.ne_nil_of_length_pos (by omega)
  have hleaves : entries.map sha256 ≠ [] := by simpa using hne
  have hindex' : index < (entries.map sha256).length := by simpa using hindex
  rw [prove_eq_ok hindex] at hprove
  -- the honest proof has full height, and so has this one
  have hdepth : honest.length = MerkleFold.depth (entries.map sha256).length := by
    obtain ⟨honest', hhonest, -, hlen'⟩ :=
      exists_siblings (hashPair sha256) (List.getElem?_eq_getElem hindex')
    rw [Option.some.inj (hprove.symm.trans hhonest), hlen', length_layers, Nat.add_sub_cancel]
  rw [verify_iff hne, walk_eq_root_iff hleaves (hlen.trans hdepth) (noClash_of_collisionFree hfree
    (List.subset_append_left _ _) (List.subset_append_right _ _)), nodeAt_of_lt hindex',
    place_of_lt hindex'] at haccept
  exact ⟨haccept.1, Option.some.inj (haccept.2.symm.trans hprove)⟩

theorem verify_binding_two :
    (new knownSha256 [txOne, txTwo]).leaves[1]? = some digestTwo ∧ [digestOne] = [digestOne] := by
  refine verify_binding (show 1 < [txOne, txTwo].length by decide) ?_ rfl ?_ ?_
  · exact (prove_eq_ok (by decide)).mpr (by decide +kernel)
  · decide +kernel
  · decide +kernel

/-! ### Shape -/

/-- The leaf is a node of the tree, as far below the root as the proof is long,
and the proof lists its siblings; the index stands for its position. -/
def NodePath (sha256 : Bytes → Digest) (entries : List Bytes) (leaf : Digest)
    (proof : List Digest) (index : ℕ) : Prop :=
  let leaves := entries.map sha256
  proof.length ≤ MerkleFold.depth entries.length ∧
    let layer := layerAt (hashPair sha256) leaves
      (MerkleFold.depth entries.length - proof.length)
    nodeAt layer index = some leaf ∧
      siblings (MerkleFold.layers (hashPair sha256) layer).dropLast (place layer.length index) =
        some proof

/-- The proof is longer than the tree is high: what its surplus siblings hash
last is a transaction, and the other siblings are those of its digest. -/
def BelowLeaf (sha256 : Bytes → Digest) (entries : List Bytes) (leaf : Digest)
    (proof : List Digest) (index : ℕ) : Prop :=
  let surplus := proof.length - MerkleFold.depth entries.length
  MerkleFold.depth entries.length < proof.length ∧
    nodeAt entries (index / 2 ^ surplus) =
      (verifyInputs sha256 leaf (proof.take surplus) index).getLast? ∧
    siblings (MerkleFold.layers (hashPair sha256) (entries.map sha256)).dropLast
      (place entries.length (index / 2 ^ surplus)) = some (proof.drop surplus)

/-- A climb ends in the digest of what it hashes last. -/
theorem walk_eq_sha256 (sha256 : Bytes → Digest) (leaf : Digest) (proof : List Digest) (index : ℕ)
    (hne : proof ≠ []) :
    ∃ input ∈ verifyInputs sha256 leaf proof index,
      (verifyInputs sha256 leaf proof index).getLast? = some input ∧
        walk (hashPair sha256) leaf proof index = sha256 input := by
  -- induction on the siblings: the last one decides
  induction proof generalizing leaf index with
  | nil => exact absurd rfl hne
  | cons other proof ih =>
    by_cases hlast : proof = []
    · subst hlast
      refine ⟨pairBytes (orient index leaf other), by simp [verifyInputs, walkPairs], rfl, ?_⟩
      rw [walk, walk, combine_eq, hashPair_eq]
    · obtain ⟨input, hmem, hget, hwalk⟩ :=
        ih (combine (hashPair sha256) index leaf other) (index / 2) hlast
      refine ⟨input, List.mem_cons_of_mem _ hmem, ?_, hwalk⟩
      have hrest : verifyInputs sha256 (combine (hashPair sha256) index leaf other) proof
          (index / 2) ≠ [] := List.ne_nil_of_mem hmem
      show (pairBytes _ :: verifyInputs sha256 _ proof (index / 2)).getLast? = some input
      rw [List.getLast?_cons_of_ne_nil hrest, hget]

theorem verifyInputs_take_subset (sha256 : Bytes → Digest) (leaf : Digest) (proof : List Digest)
    (n index : ℕ) :
    verifyInputs sha256 leaf (proof.take n) index ⊆ verifyInputs sha256 leaf proof index := by
  have hsplit := walkPairs_append (hashPair sha256) leaf (proof.take n) (proof.drop n) index
  rw [List.take_append_drop] at hsplit
  rw [verifyInputs, verifyInputs, hsplit, List.map_append]
  exact List.subset_append_left _ _

/-- What verifies: the paths of the tree, and what can be put below a
transaction that looks like two nodes. -/
theorem verify_iff_path (hne : entries ≠ []) {leaf : Digest} {proof : List Digest} {index : ℕ}
    (hfree : CollisionFree sha256 (entries ++ nodeInputs sha256 entries ++
      verifyInputs sha256 leaf proof index)) :
    verify sha256 (new sha256 entries).root leaf proof index = true ↔
      NodePath sha256 entries leaf proof index ∨ BelowLeaf sha256 entries leaf proof index := by
  have hleaves : entries.map sha256 ≠ [] := by simpa using hne
  have hclash : NoClash (hashPair sha256) (treePairs (hashPair sha256) (entries.map sha256))
      (walkPairs (hashPair sha256) leaf proof index) :=
    noClash_of_collisionFree hfree
      (List.Subset.trans (List.subset_append_right entries _) (List.subset_append_left _ _))
      (List.subset_append_right _ _)
  rw [verify_iff hne, walk_eq_root_iff_path hleaves hclash, IsPath, List.length_map]
  rcases Nat.lt_or_ge (MerkleFold.depth entries.length) proof.length with hlong | hshort
  · -- the surplus siblings start below a leaf
    have hlayer : MerkleFold.depth entries.length - proof.length = 0 := by omega
    have hsurplus : proof.take (proof.length - MerkleFold.depth entries.length) ≠ [] := by
      refine List.ne_nil_of_length_pos ?_
      rw [List.length_take]
      omega
    obtain ⟨input, hmem, hget, hwalk⟩ := walk_eq_sha256 sha256 leaf _ index hsurplus
    obtain ⟨tx, htx, hnode⟩ := exists_nodeAt hne
      (index / 2 ^ (proof.length - MerkleFold.depth entries.length))
    have hnot : ¬ NodePath sha256 entries leaf proof index := fun hpath =>
      absurd hpath.1 (by omega)
    have hinput : input ∈ verifyInputs sha256 leaf proof index :=
      verifyInputs_take_subset sha256 leaf proof _ index hmem
    -- a transaction has the digest of a pair just when it looks like the pair
    have htop : sha256 tx = sha256 input ↔ tx = input := by
      refine ⟨hfree tx (by simp [htx]) input (by simp [hinput]), ?_⟩
      rintro rfl
      rfl
    rw [or_iff_right hnot, BelowLeaf, hlayer, hwalk, hget]
    rw [layerAt_zero, nodeAt_map, hnode, List.length_map]
    simp [hlong, htop]
  · -- no surplus: a path of the tree
    have hbelow : proof.length - MerkleFold.depth entries.length = 0 := by omega
    have hnot : ¬ BelowLeaf sha256 entries leaf proof index := fun hbelow =>
      absurd hbelow.1 (by omega)
    rw [or_iff_left hnot, NodePath, hbelow]
    simp [walk, hshort]

/-- **Which shapes verify**: a proof that is accepted has an index and a length
of the tree exactly if they are right, or it is neither a path of the tree nor
put below a transaction. -/
theorem verify_shape_iff {entries : List Bytes} (hne : entries ≠ []) {leaf : Digest}
    {proof : List Digest} {index : ℕ}
    (hfree : CollisionFree sha256 (entries ++ nodeInputs sha256 entries ++
      verifyInputs sha256 leaf proof index)) :
    (verify sha256 (new sha256 entries).root leaf proof index = true →
        index < entries.length ∧ proof.length = (new sha256 entries).depth) ↔
      (index < entries.length ∧ proof.length = (new sha256 entries).depth) ∨
        ¬ (NodePath sha256 entries leaf proof index ∨
          BelowLeaf sha256 entries leaf proof index) := by
  rw [verify_iff_path hne hfree]
  tauto

/-- Two transactions, and a proof for the position of the first. -/
theorem verify_shape_two :
    (verify knownSha256 (new knownSha256 [txOne, txTwo]).root digestOne [digestTwo] 0 = true →
        0 < [txOne, txTwo].length ∧
          [digestTwo].length = (new knownSha256 [txOne, txTwo]).depth) ↔
      (0 < [txOne, txTwo].length ∧ [digestTwo].length = (new knownSha256 [txOne, txTwo]).depth) ∨
        ¬ (NodePath knownSha256 [txOne, txTwo] digestOne [digestTwo] 0 ∨
          BelowLeaf knownSha256 [txOne, txTwo] digestOne [digestTwo] 0) :=
  verify_shape_iff (by decide) (by decide +kernel)

/-- The same leaf and proof verify at position 2 of two transactions. -/
theorem verify_beyond :
    ¬ ∀ (sha256 : Bytes → Digest) (entries : List Bytes) (leaf : Digest) (proof : List Digest)
        (index : ℕ), entries ≠ [] →
      CollisionFree sha256 (entries ++ nodeInputs sha256 entries ++
        verifyInputs sha256 leaf proof index) →
      verify sha256 (new sha256 entries).root leaf proof index = true →
      index < entries.length ∧ proof.length = (new sha256 entries).depth := by
  intro hclaim
  have haccept : verify knownSha256 (new knownSha256 [txOne, txTwo]).root digestOne [digestTwo] 2 =
      true := by decide +kernel
  have hshape := hclaim knownSha256 [txOne, txTwo] digestOne [digestTwo] 2 (by decide)
    (by decide +kernel) haccept
  exact absurd hshape.1 (by decide)

/-! ### Roots -/

/-- The lists have the same strings at every position of the full tree; when
one tree is higher, what was hashed for its layer of the other's height takes
the place of its transactions. -/
def SamePadding (sha256 : Bytes → Digest) (entries entries' : List Bytes) : Prop :=
  let d := MerkleFold.depth entries.length
  let d' := MerkleFold.depth entries'.length
  ∀ p, nodeAt (layerInputs sha256 entries (d - d')) p =
    nodeAt (layerInputs sha256 entries' (d' - d)) p

/-- One list is empty, and what was hashed last for the other has the digest of
zeros. -/
def EmptyClash (sha256 : Bytes → Digest) (entries entries' : List Bytes) : Prop :=
  entries = [] ∧ ∃ top ∈ layerInputs sha256 entries' (MerkleFold.depth entries'.length),
    sha256 top = zeroDigest

theorem root_new_eq_iff_of_le {entries entries' : List Bytes} (hne : entries ≠ [])
    (hne' : entries' ≠ [])
    (hle : MerkleFold.depth entries.length ≤ MerkleFold.depth entries'.length)
    (hfree : CollisionFree sha256 (entries ++ nodeInputs sha256 entries ++
      (entries' ++ nodeInputs sha256 entries'))) :
    (new sha256 entries).root = (new sha256 entries').root ↔
      SamePadding sha256 entries entries' := by
  have hleaves : entries.map sha256 ≠ [] := by simpa using hne
  have hleaves' : entries'.map sha256 ≠ [] := by simpa using hne'
  obtain ⟨hlayer, hroot, hdepth, hpairs⟩ := layerAt_spec (h := hashPair sha256) hleaves'
    (show MerkleFold.depth entries'.length - MerkleFold.depth entries.length ≤
      MerkleFold.depth (entries'.map sha256).length by rw [List.length_map]; omega)
  -- the shorter tree against the layer of the taller one at its height
  have hclash : NoClash (hashPair sha256) (treePairs (hashPair sha256) (entries.map sha256))
      (treePairs (hashPair sha256) (layerAt (hashPair sha256) (entries'.map sha256)
        (MerkleFold.depth entries'.length - MerkleFold.depth entries.length))) := by
    refine noClash_of_collisionFree hfree ?_ (List.Subset.trans (List.map_subset _ hpairs) ?_)
    · exact List.Subset.trans (List.subset_append_right entries _) (List.subset_append_left _ _)
    · exact List.Subset.trans (List.subset_append_right entries' _) (List.subset_append_right _ _)
  rw [← Option.some.injEq, ← root_new hne, ← root_new hne', ← hroot, root_eq_root_iff hleaves hlayer
    (by rw [List.length_map] at hdepth ⊢; omega) hclash, SamePadding]
  refine forall_congr' ?_
  intro p
  rw [layerAt_eq_map, nodeAt_map, nodeAt_map, Nat.sub_eq_zero_of_le hle]
  show Option.map sha256 (nodeAt entries p) = _ ↔ nodeAt entries p = _
  -- equal digests are digests of equal bytes
  have hlayerInputs : layerInputs sha256 entries'
      (MerkleFold.depth entries'.length - MerkleFold.depth entries.length) ≠ [] := by
    rw [layerAt_eq_map] at hlayer
    simpa using hlayer
  obtain ⟨a, ha, hnode⟩ := exists_nodeAt hne p
  obtain ⟨b, hb, hnode'⟩ := exists_nodeAt hlayerInputs p
  have hb' := layerInputs_subset hne' (Nat.sub_le _ _) hb
  rw [hnode, hnode', Option.map_some, Option.map_some, Option.some.injEq, Option.some.injEq]
  constructor
  · intro heq
    exact hfree a (by simp [ha]) b (List.mem_append_right _ hb') heq
  · rintro rfl
    rfl

theorem samePadding_comm {entries entries' : List Bytes} :
    SamePadding sha256 entries entries' ↔ SamePadding sha256 entries' entries :=
  forall_congr' fun _ => eq_comm

theorem root_new_eq_iff {entries entries' : List Bytes} (hne : entries ≠ []) (hne' : entries' ≠ [])
    (hfree : CollisionFree sha256 (entries ++ nodeInputs sha256 entries ++
      (entries' ++ nodeInputs sha256 entries'))) :
    (new sha256 entries).root = (new sha256 entries').root ↔
      SamePadding sha256 entries entries' := by
  rcases Nat.le_total (MerkleFold.depth entries.length) (MerkleFold.depth entries'.length) with
    hle | hge
  · exact root_new_eq_iff_of_le hne hne' hle hfree
  · rw [samePadding_comm, eq_comm]
    refine root_new_eq_iff_of_le hne' hne hge (hfree.mono ?_)
    exact List.append_subset.mpr ⟨List.subset_append_right _ _, List.subset_append_left _ _⟩

/-- The last string that is hashed gives the root. -/
theorem root_new_eq_zero_iff (hne : entries ≠ []) :
    (new sha256 entries).root = zeroDigest ↔
      ∃ top ∈ layerInputs sha256 entries (MerkleFold.depth entries.length),
        sha256 top = zeroDigest := by
  have hleaves : entries.map sha256 ≠ [] := by simpa using hne
  obtain ⟨hlayer, hroot, hdepth, -⟩ := layerAt_spec (h := hashPair sha256) hleaves
    (show MerkleFold.depth entries.length ≤ MerkleFold.depth (entries.map sha256).length by
      rw [List.length_map])
  rw [List.length_map] at hdepth
  -- the top layer is one node, the digest of what was hashed last
  have hone : (layerAt (hashPair sha256) (entries.map sha256)
      (MerkleFold.depth entries.length)).length = 1 := by
    have hpos := List.length_pos_of_ne_nil hlayer
    by_contra hmany
    rw [depth_of_lt (by omega)] at hdepth
    omega
  rw [layerAt_eq_map] at hone hroot
  obtain ⟨top, htop⟩ := List.length_eq_one_iff.mp (by simpa using hone)
  rw [htop, List.map_singleton, root_singleton, root_new hne, Option.some.injEq] at hroot
  rw [htop, ← hroot]
  simp

theorem not_emptyClash_nil : ¬ EmptyClash sha256 entries [] := by
  rintro ⟨-, top, htop, -⟩
  rw [List.length_nil, depth_of_le (by omega)] at htop
  exact List.not_mem_nil htop

/-- A list with transactions has something at every position. -/
theorem not_samePadding_nil (hne : entries ≠ []) : ¬ SamePadding sha256 [] entries := by
  intro hsame
  have hzero := hsame 0
  rw [List.length_nil, depth_of_le (n := 0) (by omega), Nat.zero_sub, Nat.sub_zero] at hzero
  have hleaves : entries.map sha256 ≠ [] := by simpa using hne
  obtain ⟨hlayer, -⟩ := layerAt_spec (h := hashPair sha256) hleaves
    (show MerkleFold.depth entries.length ≤ MerkleFold.depth (entries.map sha256).length by
      rw [List.length_map])
  rw [layerAt_eq_map] at hlayer
  obtain ⟨top, -, htop⟩ := exists_nodeAt (by simpa using hlayer) 0
  rw [htop] at hzero
  cases hzero

theorem root_new_nil_eq_iff (hne : entries ≠ []) :
    (new sha256 []).root = (new sha256 entries).root ↔ EmptyClash sha256 [] entries := by
  rw [root_new_nil, eq_comm, root_new_eq_zero_iff hne]
  simp [EmptyClash]

/-- **What a root commits to**: lists with one root are equal, unless they have
the same padding or the root is the one of the empty list. -/
theorem root_commits_iff {entries entries' : List Bytes}
    (hfree : CollisionFree sha256 (entries ++ nodeInputs sha256 entries ++
      (entries' ++ nodeInputs sha256 entries'))) :
    ((new sha256 entries).root = (new sha256 entries').root → entries = entries') ↔
      entries = entries' ∨
        ¬ (SamePadding sha256 entries entries' ∨ EmptyClash sha256 entries entries' ∨
          EmptyClash sha256 entries' entries) := by
  suffices hroot : entries ≠ entries' →
      ((new sha256 entries).root = (new sha256 entries').root ↔
        SamePadding sha256 entries entries' ∨ EmptyClash sha256 entries entries' ∨
          EmptyClash sha256 entries' entries) by
    by_cases heq : entries = entries'
    · simp [heq]
    · simp [heq, hroot heq]
  intro hdiff
  by_cases hne : entries = []
  · -- an empty list has the zero root
    subst hne
    have hne' : entries' ≠ [] := Ne.symm hdiff
    rw [root_new_nil_eq_iff hne', or_iff_right (not_samePadding_nil hne'),
      or_iff_left not_emptyClash_nil]
  · by_cases hne' : entries' = []
    · subst hne'
      rw [eq_comm, root_new_nil_eq_iff hne, samePadding_comm,
        or_iff_right (not_samePadding_nil hne), or_iff_right not_emptyClash_nil]
    · -- both have transactions, so neither root is the one of the empty list
      rw [root_new_eq_iff hne hne' hfree]
      have hclash : ¬ EmptyClash sha256 entries entries' := fun h => hne h.1
      have hclash' : ¬ EmptyClash sha256 entries' entries := fun h => hne' h.1
      rw [or_iff_left hclash', or_iff_left hclash]

/-- Two different transactions. -/
theorem root_commits_two :
    ((new knownSha256 [txOne]).root = (new knownSha256 [txTwo]).root → [txOne] = [txTwo]) ↔
      [txOne] = [txTwo] ∨
        ¬ (SamePadding knownSha256 [txOne] [txTwo] ∨ EmptyClash knownSha256 [txOne] [txTwo] ∨
          EmptyClash knownSha256 [txTwo] [txOne]) := by
  have hfree : CollisionFree knownSha256 ([txOne] ++ nodeInputs knownSha256 [txOne] ++
      ([txTwo] ++ nodeInputs knownSha256 [txTwo])) := by decide +kernel
  exact root_commits_iff hfree

/-- Repeating the last of three transactions does not change the root. -/
theorem root_repeated :
    ¬ ∀ (sha256 : Bytes → Digest) (entries entries' : List Bytes),
      CollisionFree sha256 (entries ++ nodeInputs sha256 entries ++
        (entries' ++ nodeInputs sha256 entries')) →
      (new sha256 entries).root = (new sha256 entries').root → entries = entries' := by
  intro hclaim
  have hroot : (new knownSha256 [txOne, txTwo, txTwo]).root =
      (new knownSha256 [txOne, txTwo, txTwo, txTwo]).root := by decide +kernel
  have heq := hclaim knownSha256 [txOne, txTwo, txTwo] [txOne, txTwo, txTwo, txTwo]
    (by decide +kernel) hroot
  exact absurd heq (by decide)

end Sg32.MerkleTree
