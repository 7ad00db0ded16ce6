/-
Parsing shreds (`shred.rs`).

`parseFromBytes` reads the headers, the payload, the chained Merkle root and
the Merkle proof of a packet at offsets that it computes from the `size` field
and from the variant byte.

* `readProof_iff` — the proof is the range it occupies;
* `readSeal_iff` — the root and the proof are one range of the packet.
-/
import Sg32.ShredHeader

namespace Sg32

open Bytes

inductive Shred
  | merkleData (common_header : ShredCommonHeader) (data_header : DataShredHeader)
      (merkle_root : Vector UInt8 32) (merkle_proof : List (Vector UInt8 20)) (data : Bytes)
  | merkleCode (common_header : ShredCommonHeader) (coding_header : CodingShredHeader)
      (merkle_root : Vector UInt8 32) (merkle_proof : List (Vector UInt8 20)) (code : Bytes)
  deriving DecidableEq

/-- The proof entries, 20 bytes each, from `proof_off` on. -/
def readProof (bytes : Bytes) : ℕ → ℕ → Option (List (Vector UInt8 20))
  | 0, _ => some []
  | proof_size + 1, proof_off => do
    let entry ← readArr 20 bytes proof_off
    let merkle_proof ← readProof bytes proof_size (proof_off + 20)
    some (entry :: merkle_proof)

/-- The bytes of a retransmitter signature, when there is one. -/
def sizeOfResigned (resigned : Bool) : ℕ := if resigned then SIZE_OF_SIGNATURE else 0

namespace Shred

def parseData (bytes : Bytes) (common_header : ShredCommonHeader) (proof_size : ℕ)
    (resigned : Bool) : Option Shred := do
  let header ← getRange bytes SIZE_OF_COMMON_HEADER (SIZE_OF_COMMON_HEADER + SIZE_OF_DATA_HEADER)
  let data_header ← DataShredHeader.deserialize header
  let data_off := SIZE_OF_COMMON_HEADER + SIZE_OF_DATA_HEADER
  let data_end := data_header.size.toNat
  let data ← (if data_end > data_off then getRange bytes data_off data_end else some [])
  let after_data := data_end + sizeOfResigned resigned
  let merkle_root ← readArr 32 bytes after_data
  let proof_off := after_data + 32
  let merkle_proof ← readProof bytes proof_size proof_off
  some (.merkleData common_header data_header merkle_root merkle_proof data)

/-- The payload length of a code shred; the proof sizes that the variant byte
can name keep the difference positive. -/
def codeLen (proof_size : ℕ) (resigned : Bool) : ℕ :=
  SIZE_OF_CODING_SHRED - (SIZE_OF_COMMON_HEADER + SIZE_OF_CODING_HEADER) - SIZE_OF_MERKLE_ROOT
    - proof_size * SIZE_OF_MERKLE_PROOF_ENTRY - sizeOfResigned resigned

def parseCode (bytes : Bytes) (common_header : ShredCommonHeader) (proof_size : ℕ)
    (resigned : Bool) : Option Shred := do
  let header ← getRange bytes SIZE_OF_COMMON_HEADER
    (SIZE_OF_COMMON_HEADER + SIZE_OF_CODING_HEADER)
  let coding_header ← CodingShredHeader.deserialize header
  let code_off := SIZE_OF_COMMON_HEADER + SIZE_OF_CODING_HEADER
  let code_len := codeLen proof_size resigned
  let code ← getRange bytes code_off (code_off + code_len)
  let after_code := code_off + code_len
  let merkle_off := after_code + sizeOfResigned resigned
  let merkle_root ← readArr 32 bytes merkle_off
  let proof_off := merkle_off + 32
  let merkle_proof ← readProof bytes proof_size proof_off
  some (.merkleCode common_header coding_header merkle_root merkle_proof code)

def parseFromBytes (bytes : Bytes) : Option Shred := do
  let variant ← getShredVariant bytes
  let common_header ← ShredCommonHeader.fromBytes bytes
  match variant with
  | .merkleData proof_size resigned => parseData bytes common_header proof_size.toNat resigned
  | .merkleCode proof_size resigned => parseCode bytes common_header proof_size.toNat resigned

def commonHeader : Shred → ShredCommonHeader
  | .merkleData common_header _ _ _ _ => common_header
  | .merkleCode common_header _ _ _ _ => common_header

def slot (shred : Shred) : UInt64 := shred.commonHeader.slot

def erasureSetId (shred : Shred) : ErasureSetId where
  slot := shred.commonHeader.slot
  fec_set_index := shred.commonHeader.fec_set_index

/-- The payload that the parser extracts. -/
def payload : Shred → Bytes
  | .merkleData _ _ _ _ data => data
  | .merkleCode _ _ _ _ code => code

def merkleRoot : Shred → Vector UInt8 32
  | .merkleData _ _ merkle_root _ _ => merkle_root
  | .merkleCode _ _ merkle_root _ _ => merkle_root

def merkleProof : Shred → List (Vector UInt8 20)
  | .merkleData _ _ _ merkle_proof _ => merkle_proof
  | .merkleCode _ _ _ merkle_proof _ => merkle_proof

end Shred

/-! ### The root and the proof -/

/-- A root and a proof as they stand in a packet. -/
def sealBytes (merkle_root : Vector UInt8 32) (merkle_proof : List (Vector UInt8 20)) : Bytes :=
  merkle_root.toList ++ merkle_proof.flatMap Vector.toList

theorem length_flatMap_toList {n : ℕ} (vs : List (Vector UInt8 n)) :
    (vs.flatMap Vector.toList).length = n * vs.length := by
  induction vs with
  | nil => rfl
  | cons v vs ih =>
    rw [List.flatMap_cons, List.length_append, ih, Vector.length_toList, List.length_cons]
    ring

@[simp] theorem length_sealBytes (merkle_root : Vector UInt8 32)
    (merkle_proof : List (Vector UInt8 20)) :
    (sealBytes merkle_root merkle_proof).length = 32 + 20 * merkle_proof.length := by
  rw [sealBytes, List.length_append, Vector.length_toList, length_flatMap_toList]

theorem exists_entries {area : Bytes} {n : ℕ} (h : area.length = 20 * n) :
    ∃ vs : List (Vector UInt8 20), vs.length = n ∧ vs.flatMap Vector.toList = area := by
  induction n generalizing area with
  | zero => exact ⟨[], rfl, (List.eq_nil_of_length_eq_zero h).symm⟩
  | succ n ih =>
    obtain ⟨vs, hvs, hflat⟩ := ih (show (area.drop 20).length = 20 * n by
      rw [List.length_drop]
      omega)
    have hlen : (area.take 20).length = 20 := by rw [List.length_take]; omega
    refine ⟨⟨⟨area.take 20⟩, hlen⟩ :: vs, by simp [hvs], ?_⟩
    rw [List.flatMap_cons, hflat]
    exact List.take_append_drop 20 area

/-- Bytes of the right length are a root and a proof. -/
theorem exists_sealBytes {area : Bytes} {n : ℕ} (h : area.length = 32 + 20 * n) :
    ∃ (merkle_root : Vector UInt8 32) (merkle_proof : List (Vector UInt8 20)),
      merkle_proof.length = n ∧ sealBytes merkle_root merkle_proof = area := by
  obtain ⟨vs, hvs, hflat⟩ := exists_entries (show (area.drop 32).length = 20 * n by
    rw [List.length_drop]
    omega)
  have hlen : (area.take 32).length = 32 := by rw [List.length_take]; omega
  refine ⟨⟨⟨area.take 32⟩, hlen⟩, vs, hvs, ?_⟩
  rw [sealBytes, hflat]
  exact List.take_append_drop 32 area

/-- The proof is the range it occupies. -/
theorem readProof_iff {bytes : Bytes} {n off : ℕ} {merkle_proof : List (Vector UInt8 20)}
    (hoff : off ≤ bytes.length) :
    readProof bytes n off = some merkle_proof ↔
      merkle_proof.length = n ∧
        getRange bytes off (off + 20 * n) = some (merkle_proof.flatMap Vector.toList) := by
  -- induction on the entries that are left
  induction n generalizing off merkle_proof with
  | zero =>
    rw [readProof, Option.some.injEq, Nat.mul_zero, Nat.add_zero, getRange_of_le le_rfl hoff]
    cases merkle_proof <;> simp
  | succ n ih =>
    rw [readProof]
    simp only [Option.bind_eq_bind, Option.bind_eq_some_iff, Option.some.injEq]
    have hend : off + 20 * (n + 1) = off + 20 + 20 * n := by ring
    constructor
    · rintro ⟨entry, hentry, rest, hrest, rfl⟩
      have hrange := getArr_eq_some.mp hentry
      have hle := (getRange_eq_some.mp hrange).1.2
      obtain ⟨hlen, hproof⟩ := (ih hle).mp hrest
      refine ⟨by simp [hlen], ?_⟩
      rw [hend, List.flatMap_cons,
        getRange_join (Nat.le_add_right _ 20) (Nat.le_add_right _ _) (by simp)]
      exact ⟨hrange, hproof⟩
    · rintro ⟨hlen, hrange⟩
      obtain ⟨entry, rest, rfl⟩ := List.exists_cons_of_length_eq_add_one hlen
      rw [hend, List.flatMap_cons,
        getRange_join (Nat.le_add_right _ 20) (Nat.le_add_right _ _) (by simp)] at hrange
      have hle := (getRange_eq_some.mp hrange.1).1.2
      refine ⟨entry, getArr_eq_some.mpr hrange.1, rest, (ih hle).mpr ⟨?_, hrange.2⟩, rfl⟩
      simpa using hlen

theorem readSeal_iff {bytes : Bytes} {n off : ℕ} {merkle_root : Vector UInt8 32}
    {merkle_proof : List (Vector UInt8 20)} :
    readArr 32 bytes off = some merkle_root ∧ readProof bytes n (off + 32) = some merkle_proof ↔
      merkle_proof.length = n ∧
        getRange bytes off (off + 32 + 20 * n) = some (sealBytes merkle_root merkle_proof) := by
  rw [sealBytes, getRange_join (Nat.le_add_right _ 32) (Nat.le_add_right _ _) (by simp),
    readArr, getArr_eq_some]
  constructor
  · rintro ⟨hroot, hproof⟩
    obtain ⟨hlen, hrange⟩ := (readProof_iff (getRange_eq_some.mp hroot).1.2).mp hproof
    exact ⟨hlen, hroot, hrange⟩
  · rintro ⟨hlen, hroot, hproof⟩
    exact ⟨hroot, (readProof_iff (getRange_eq_some.mp hroot).1.2).mpr ⟨hlen, hproof⟩⟩

end Sg32
