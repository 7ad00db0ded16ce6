/-
The proof verifier of the client (`verifyMerkleProof` in the SDK's `index.ts`).

The client folds byte strings that it reads from hexadecimal text two
characters at a time, whatever the characters are; the server's verifier folds
digests.

* `foldProof_int`, `foldProof_nan` — the loop climbs at the index, or, when the
  index is not a number, with every sibling on the left;
* `verifyMerkleProof_decoded` — on encoded digests the two verifiers agree;
* `verifyMerkleProof_agrees_iff` — they agree on all texts but those that are
  malformed and yet fold to the root.
-/
import Sg32.Foundation.JavaScript
import Sg32.MerkleProver

namespace Sg32.Sdk

open JavaScript MerkleFold

variable (sha256 : Bytes → Digest)

def hashPair (a b : Bytes) : Bytes := (sha256 (a ++ b)).toList

/-- The bytes of the pairs of characters; a last odd character is dropped, and
NaN is stored as 0. -/
def hexToBytes (hex : Str) : Bytes :=
  (List.range (hex.length / 2)).map fun i => (parseInt ((hex.drop (i * 2)).take 2)).toUint8

def bytesEqual (a b : Bytes) : Bool :=
  if a.length ≠ b.length then false else (List.range a.length).all fun i => a[i]? = b[i]?

/-- The loop of `verifyMerkleProof`. -/
def foldProof (hash : Bytes) (idx : Number) : List Str → Bytes
  | [] => hash
  | siblingHex :: proofHexes =>
    let sibling := hexToBytes siblingHex
    let hash := if idx.remTwo.strictEq (.int 0) then hashPair sha256 hash sibling
      else hashPair sha256 sibling hash
    foldProof hash idx.floorHalf proofHexes

def verifyMerkleProof (rootHex leafHex : Str) (proofHexes : List Str) (index : Number) : Bool :=
  bytesEqual (foldProof sha256 (hexToBytes leafHex) index proofHexes) (hexToBytes rootHex)

/-! ### Reading text -/

theorem bytesEqual_iff {a b : Bytes} : bytesEqual a b = true ↔ a = b := by
  rw [bytesEqual]
  split_ifs with hlen
  · simp only [false_iff]
    rintro rfl
    exact hlen rfl
  · have hlen' : a.length = b.length := not_not.mp hlen
    simp only [List.all_eq_true, List.mem_range, decide_eq_true_eq]
    constructor
    · intro hget
      refine List.ext_getElem? fun i => ?_
      by_cases hi : i < a.length
      · exact hget i hi
      · rw [List.getElem?_eq_none (by omega), List.getElem?_eq_none (by omega)]
    · rintro rfl i -
      rfl

theorem hexToBytes_cons (a b : UInt16) (hex : Str) :
    hexToBytes (a :: b :: hex) = (parseInt [a, b]).toUint8 :: hexToBytes hex := by
  have hlen : (a :: b :: hex).length / 2 = hex.length / 2 + 1 := by
    rw [List.length_cons, List.length_cons]
    omega
  rw [hexToBytes, hlen, List.range_succ_eq_map, List.map_cons, List.map_map, hexToBytes]
  refine congrArg (List.cons _) (List.map_congr_left fun i _ => ?_)
  rw [Function.comp_apply, Nat.succ_mul]
  rfl

/-- Hexadecimal text is read as the bytes that it encodes. -/
theorem hexToBytes_of_decodeHex {hex : Str} {bytes : Bytes} (h : decodeHex hex = some bytes) :
    hexToBytes hex = bytes := by
  induction hex using decodeHex.induct generalizing bytes with
  | case1 =>
    cases h
    rfl
  | case2 => cases h
  | case3 a b hex ih =>
    simp only [decodeHex, Option.bind_eq_bind, Option.bind_eq_some_iff] at h
    obtain ⟨high, ha, low, hb, tail, htail, h⟩ := h
    cases h
    obtain ⟨hhigh, -⟩ := hexDigit_eq_some ha
    obtain ⟨hlow, -⟩ := hexDigit_eq_some hb
    rw [hexToBytes_cons, parseInt_pair ha hb, ih htail, Number.toUint8]
    congr 2
    omega

/-- The digest that a text of 64 hexadecimal digits encodes. -/
def decodeDigest (hex : Str) : Option Digest := do
  let bytes ← decodeHex hex
  if h : bytes.length = 32 then some ⟨⟨bytes⟩, h⟩ else none

theorem hexToBytes_of_decodeDigest {hex : Str} {digest : Digest}
    (h : decodeDigest hex = some digest) : hexToBytes hex = digest.toList := by
  obtain ⟨bytes, hbytes, h⟩ := Option.bind_eq_some_iff.mp h
  split_ifs at h with hlen
  cases h
  exact hexToBytes_of_decodeHex hbytes

/-! ### The loop -/

/-- `idx % 2 === 0`, at an index. -/
theorem strictEq_remTwo (index : ℕ) :
    (Number.int index).remTwo.strictEq (.int 0) = decide (index % 2 = 0) := by
  show decide ((index : ℤ).tmod 2 = 0) = decide (index % 2 = 0)
  rw [Int.tmod_eq_emod_of_nonneg (Int.natCast_nonneg index), decide_eq_decide]
  omega

/-- At an index the loop climbs on the sides that its bits tell. -/
theorem foldProof_int (hash : Bytes) (index : ℕ) (proofHexes : List Str) :
    foldProof sha256 hash (.int index) proofHexes =
      walk (hashPair sha256) hash (proofHexes.map hexToBytes) index := by
  induction proofHexes generalizing hash index with
  | nil => rfl
  | cons siblingHex proofHexes ih =>
    rw [foldProof, strictEq_remTwo, List.map_cons, walk, combine]
    have hhalf : (Number.int index).floorHalf = .int (index / 2 : ℕ) := rfl
    simp only [hhalf, ih, decide_eq_true_eq]

/-- Without an index it climbs with every sibling on the left, as it would at the
last position. -/
theorem foldProof_nan (hash : Bytes) (proofHexes : List Str) :
    foldProof sha256 hash .nan proofHexes =
      walk (hashPair sha256) hash (proofHexes.map hexToBytes) (2 ^ proofHexes.length - 1) := by
  induction proofHexes generalizing hash with
  | nil => rfl
  | cons siblingHex proofHexes ih =>
    have hpos := Nat.two_pow_pos proofHexes.length
    have hodd : ¬ (2 ^ (proofHexes.length + 1) - 1) % 2 = 0 := by omega
    have hhalf : (2 ^ (proofHexes.length + 1) - 1) / 2 = 2 ^ proofHexes.length - 1 := by omega
    rw [List.map_cons, List.length_cons, walk, combine, if_neg hodd, hhalf, ← ih]
    rfl

/-- Over encoded digests the byte strings are those of the digests. -/
theorem walk_toList (leaf : Digest) (proof : List Digest) (index : ℕ) :
    walk (hashPair sha256) leaf.toList (proof.map Vector.toList) index =
      (walk (MerkleTree.hashPair sha256) leaf proof index).toList := by
  induction proof generalizing leaf index with
  | nil => rfl
  | cons sibling proof ih =>
    rw [List.map_cons, walk, walk, ← ih]
    congr 1
    rw [combine, combine]
    split_ifs <;> rfl

/-! ### Agreement with the server's verifier -/

/-- The text is 64 hexadecimal digits. -/
def IsDigestHex (hex : Str) : Prop := hex.length = 64 ∧ ∀ c ∈ hex, (hexDigit c).isSome = true

theorem decodeDigest_isSome_iff {hex : Str} :
    (decodeDigest hex).isSome = true ↔ IsDigestHex hex := by
  rw [decodeDigest, IsDigestHex]
  rcases hbytes : decodeHex hex with _ | bytes
  · have hnone := decodeHex_isSome_iff (s := hex)
    rw [hbytes] at hnone
    simp only [Option.bind_eq_bind, Option.bind_none, Option.isSome_none, Bool.false_eq_true,
      false_iff] at hnone ⊢
    rintro ⟨hlen, hdigits⟩
    exact hnone ⟨by omega, hdigits⟩
  · have hlen := length_of_decodeHex hbytes
    have hsome := decodeHex_isSome_iff (s := hex)
    rw [hbytes] at hsome
    have hdigits := (hsome.mp rfl).2
    rw [Option.bind_eq_bind, Option.bind_some]
    split_ifs with h32
    · exact ⟨fun _ => ⟨by omega, hdigits⟩, fun _ => rfl⟩
    · simp only [Option.isSome_none, Bool.false_eq_true, false_iff]
      rintro ⟨h64, -⟩
      omega

theorem exists_decodeDigest {hex : Str} (h : IsDigestHex hex) :
    ∃ digest, decodeDigest hex = some digest :=
  Option.isSome_iff_exists.mp (decodeDigest_isSome_iff.mpr h)

theorem isDigestHex_of_decodeDigest {hex : Str} {digest : Digest}
    (h : decodeDigest hex = some digest) : IsDigestHex hex :=
  decodeDigest_isSome_iff.mp (Option.isSome_iff_exists.mpr ⟨digest, h⟩)

theorem exists_decodeProof {proofHexes : List Str} (h : ∀ hex ∈ proofHexes, IsDigestHex hex) :
    ∃ proof, proofHexes.mapM decodeDigest = some proof := by
  induction proofHexes with
  | nil => exact ⟨[], rfl⟩
  | cons hex proofHexes ih =>
    rw [List.forall_mem_cons] at h
    obtain ⟨digest, hdigest⟩ := exists_decodeDigest h.1
    obtain ⟨proof, hproof⟩ := ih h.2
    refine ⟨digest :: proof, ?_⟩
    rw [List.mapM_cons, hdigest, hproof]
    rfl

theorem decodeProof_eq_some {proofHexes : List Str} {proof : List Digest}
    (h : proofHexes.mapM decodeDigest = some proof) :
    (∀ hex ∈ proofHexes, IsDigestHex hex) ∧
      proofHexes.map hexToBytes = proof.map Vector.toList := by
  induction proofHexes generalizing proof with
  | nil =>
    cases h
    exact ⟨by simp, rfl⟩
  | cons hex proofHexes ih =>
    rw [List.mapM_cons] at h
    obtain ⟨digest, hdigest, h⟩ := Option.bind_eq_some_iff.mp h
    obtain ⟨tail, htail, h⟩ := Option.bind_eq_some_iff.mp h
    cases h
    obtain ⟨hall, hmap⟩ := ih htail
    refine ⟨List.forall_mem_cons.mpr ⟨isDigestHex_of_decodeDigest hdigest, hall⟩, ?_⟩
    rw [List.map_cons, List.map_cons, hmap, hexToBytes_of_decodeDigest hdigest]

theorem verifyMerkleProof_iff (rootHex leafHex : Str) (proofHexes : List Str) (index : ℕ) :
    verifyMerkleProof sha256 rootHex leafHex proofHexes (.int index) = true ↔
      walk (hashPair sha256) (hexToBytes leafHex) (proofHexes.map hexToBytes) index =
        hexToBytes rootHex := by
  rw [verifyMerkleProof, bytesEqual_iff, foldProof_int]

/-- On encoded digests the verifiers agree. -/
theorem verifyMerkleProof_decoded {rootHex leafHex : Str} {proofHexes : List Str}
    {root leaf : Digest} {proof : List Digest} (hroot : decodeDigest rootHex = some root)
    (hleaf : decodeDigest leafHex = some leaf) (hproof : proofHexes.mapM decodeDigest = some proof)
    (index : ℕ) :
    verifyMerkleProof sha256 rootHex leafHex proofHexes (.int index) = true ↔
      MerkleTree.verify sha256 root leaf proof index = true := by
  rw [verifyMerkleProof_iff, MerkleTree.verify, decide_eq_true_iff,
    hexToBytes_of_decodeDigest hroot, hexToBytes_of_decodeDigest hleaf,
    (decodeProof_eq_some hproof).2, walk_toList]
  exact Vector.toList_inj

/-- **When the two verifiers agree**: all texts are digests, or the bytes that
are read from them do not fold to the root. -/
theorem verifyMerkleProof_agrees_iff (rootHex leafHex : Str) (proofHexes : List Str)
    (index : Fin (2 ^ 53)) :
    (verifyMerkleProof sha256 rootHex leafHex proofHexes (.int index.val) = true ↔
        ∃ root leaf proof, decodeDigest rootHex = some root ∧ decodeDigest leafHex = some leaf ∧
          proofHexes.mapM decodeDigest = some proof ∧
          MerkleTree.verify sha256 root leaf proof index = true) ↔
      (∀ hex ∈ rootHex :: leafHex :: proofHexes, IsDigestHex hex) ∨
        walk (hashPair sha256) (hexToBytes leafHex) (proofHexes.map hexToBytes) index ≠
          hexToBytes rootHex := by
  by_cases hall : ∀ hex ∈ rootHex :: leafHex :: proofHexes, IsDigestHex hex
  · refine ⟨fun _ => .inl hall, fun _ => ?_⟩
    rw [List.forall_mem_cons, List.forall_mem_cons] at hall
    obtain ⟨root, hroot⟩ := exists_decodeDigest hall.1
    obtain ⟨leaf, hleaf⟩ := exists_decodeDigest hall.2.1
    obtain ⟨proof, hproof⟩ := exists_decodeProof hall.2.2
    rw [verifyMerkleProof_decoded sha256 hroot hleaf hproof]
    constructor
    · intro hverify
      exact ⟨root, leaf, proof, hroot, hleaf, hproof, hverify⟩
    · rintro ⟨root', leaf', proof', hroot', hleaf', hproof', hverify⟩
      cases hroot.symm.trans hroot'
      cases hleaf.symm.trans hleaf'
      cases hproof.symm.trans hproof'
      exact hverify
  · -- no digests are encoded, so that the client should not accept
    rw [verifyMerkleProof_iff]
    have hnone : ¬ ∃ root leaf proof, decodeDigest rootHex = some root ∧
        decodeDigest leafHex = some leaf ∧ proofHexes.mapM decodeDigest = some proof ∧
        MerkleTree.verify sha256 root leaf proof index = true := by
      rintro ⟨root, leaf, proof, hroot, hleaf, hproof, -⟩
      refine hall (List.forall_mem_cons.mpr ⟨isDigestHex_of_decodeDigest hroot, ?_⟩)
      exact List.forall_mem_cons.mpr ⟨isDigestHex_of_decodeDigest hleaf,
        (decodeProof_eq_some hproof).1⟩
    rw [iff_false_right hnone, or_iff_right hall]

/-- A leaf of 64 letters z, which are no digits, is read as 32 zeros. -/
theorem verifyMerkleProof_malformed :
    ¬ ∀ (sha256 : Bytes → Digest) (rootHex leafHex : Str) (proofHexes : List Str)
        (index : Fin (2 ^ 53)),
      verifyMerkleProof sha256 rootHex leafHex proofHexes (.int index.val) = true ↔
        ∃ root leaf proof, decodeDigest rootHex = some root ∧ decodeDigest leafHex = some leaf ∧
          proofHexes.mapM decodeDigest = some proof ∧
          MerkleTree.verify sha256 root leaf proof index = true := by
  intro h
  have haccepted := h (fun _ => zeroDigest) (List.replicate 64 0x30) (List.replicate 64 0x7A) [] 0
  obtain ⟨root, leaf, proof, -, hleaf, -⟩ := haccepted.mp (by decide +kernel)
  have hnone : decodeDigest (List.replicate 64 0x7A) = none := by decide +kernel
  rw [hnone] at hleaf
  cases hleaf

end Sg32.Sdk
