/-
Shred headers (`shred_header.rs`).

Every shred starts with a common header of 83 bytes; five more bytes follow in
a data shred and six more in a code shred.  All numbers are little-endian, and
one byte packs the type of the shred with the size of its Merkle proof.

* `fromU8_toU8` — the variant byte loses nothing;
* `getLe_append` — a number is read back from where it was put.
-/
import Sg32.Foundation.Bytes

namespace Sg32

open Bytes

def PACKET_DATA_SIZE : ℕ := 1232

def SIZE_OF_SIGNATURE : ℕ := 64

def SIZE_OF_COMMON_HEADER : ℕ := 83

def SIZE_OF_DATA_HEADER : ℕ := 5

def SIZE_OF_CODING_HEADER : ℕ := 6

def SIZE_OF_DATA_SHRED : ℕ := 1203

def SIZE_OF_CODING_SHRED : ℕ := 1228

def SIZE_OF_MERKLE_ROOT : ℕ := 32

def SIZE_OF_MERKLE_PROOF_ENTRY : ℕ := 20

/-! ### Variant byte -/

inductive ShredVariant
  | merkleData (proof_size : UInt8) (resigned : Bool)
  | merkleCode (proof_size : UInt8) (resigned : Bool)
  deriving DecidableEq, Repr

namespace ShredVariant

/-- The upper nibble is the type, the lower nibble the proof size. -/
def fromU8 (byte : UInt8) : Option ShredVariant :=
  let proof_size := byte &&& 0x0F
  match byte &&& 0xF0 with
  | 0x90 => some (.merkleData proof_size false)
  | 0xB0 => some (.merkleData proof_size true)
  | 0x60 => some (.merkleCode proof_size false)
  | 0x70 => some (.merkleCode proof_size true)
  | _ => none

def toU8 : ShredVariant → UInt8
  | .merkleData proof_size false => 0x90 ||| proof_size
  | .merkleData proof_size true => 0xB0 ||| proof_size
  | .merkleCode proof_size false => 0x60 ||| proof_size
  | .merkleCode proof_size true => 0x70 ||| proof_size

def proofSize : ShredVariant → UInt8
  | .merkleData proof_size _ => proof_size
  | .merkleCode proof_size _ => proof_size

def resigned : ShredVariant → Bool
  | .merkleData _ resigned => resigned
  | .merkleCode _ resigned => resigned

/-- A proof size that fits its nibble comes back. -/
theorem fromU8_toU8 {variant : ShredVariant} (h : variant.proofSize.toNat ≤ 15) :
    fromU8 variant.toU8 = some variant := by
  have hnibble : ∀ (resigned : Bool) (n : Fin 16),
      fromU8 (toU8 (.merkleData (.ofNat n) resigned)) = some (.merkleData (.ofNat n) resigned) ∧
      fromU8 (toU8 (.merkleCode (.ofNat n) resigned)) = some (.merkleCode (.ofNat n) resigned) := by
    decide +kernel
  rcases variant with ⟨proof_size, resigned⟩ | ⟨proof_size, resigned⟩
  · have hn := (hnibble resigned ⟨proof_size.toNat, Nat.lt_succ_of_le h⟩).1
    rwa [UInt8.ofNat_toNat] at hn
  · have hn := (hnibble resigned ⟨proof_size.toNat, Nat.lt_succ_of_le h⟩).2
    rwa [UInt8.ofNat_toNat] at hn

theorem proofSize_le_of_fromU8 {byte : UInt8} {variant : ShredVariant}
    (h : fromU8 byte = some variant) : variant.proofSize.toNat ≤ 15 := by
  have hmask : (byte &&& 0x0F).toNat ≤ 15 := by
    rw [UInt8.toNat_and]
    exact Nat.and_le_right
  unfold fromU8 at h
  split at h <;> cases h <;> exact hmask

end ShredVariant

/-! ### Reading -/

/-- `N` bytes at `offset`. -/
def readArr (N : ℕ) (bytes : Bytes) (offset : ℕ) : Option (Vector UInt8 N) :=
  getArr N bytes offset

/-- `from_le_bytes(bytes.get(a..b)?)`. -/
def getLe (bytes : Bytes) (a b : ℕ) : Option ℕ := (getRange bytes a b).map leNat

theorem getLe_append (pre post : Bytes) {mid : Bytes} {n a b : ℕ} (ha : pre.length = a)
    (hb : a + mid.length = b) (hn : leNat mid = n) :
    getLe (pre ++ (mid ++ post)) a b = some n := by
  rw [getLe, getRange_append ha hb, Option.map_some, hn]

/-! ### Headers -/

structure ShredCommonHeader where
  signature : Vector UInt8 64
  shred_variant : UInt8
  slot : UInt64
  index : UInt32
  version : UInt16
  fec_set_index : UInt32
  deriving DecidableEq

def ShredCommonHeader.fromBytes (bytes : Bytes) : Option ShredCommonHeader := do
  let signature ← readArr 64 bytes 0
  let shred_variant ← bytes[64]?
  let slot ← getLe bytes 65 73
  let index ← getLe bytes 73 77
  let version ← getLe bytes 77 79
  let fec_set_index ← getLe bytes 79 83
  some {
    signature := signature
    shred_variant := shred_variant
    slot := .ofNat slot
    index := .ofNat index
    version := .ofNat version
    fec_set_index := .ofNat fec_set_index }

structure DataShredHeader where
  parent_offset : UInt16
  flags : UInt8
  size : UInt16
  deriving DecidableEq

/-- `bincode::deserialize`: the fields in order. -/
def DataShredHeader.deserialize (bytes : Bytes) : Option DataShredHeader := do
  let parent_offset ← getLe bytes 0 2
  let flags ← bytes[2]?
  let size ← getLe bytes 3 5
  some { parent_offset := .ofNat parent_offset, flags := flags, size := .ofNat size }

structure CodingShredHeader where
  num_data_shreds : UInt16
  num_coding_shreds : UInt16
  position : UInt16
  deriving DecidableEq

/-- `bincode::deserialize`: the fields in order. -/
def CodingShredHeader.deserialize (bytes : Bytes) : Option CodingShredHeader := do
  let num_data_shreds ← getLe bytes 0 2
  let num_coding_shreds ← getLe bytes 2 4
  let position ← getLe bytes 4 6
  some {
    num_data_shreds := .ofNat num_data_shreds
    num_coding_shreds := .ofNat num_coding_shreds
    position := .ofNat position }

def getShredVariant (bytes : Bytes) : Option ShredVariant := do
  let byte ← bytes[64]?
  ShredVariant.fromU8 byte

/-- The erasure set of a shred: shreds with the same id belong together. -/
structure ErasureSetId where
  slot : UInt64
  fec_set_index : UInt32
  deriving DecidableEq

end Sg32
