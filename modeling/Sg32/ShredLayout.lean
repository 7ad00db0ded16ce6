/-
The wire layout of shreds, and what the parser makes of it.

A leader puts the headers, the payload, zero padding up to the capacity of a
data shred, the chained root, the Merkle proof and, in the last batch of a
slot, a retransmitter signature.  The parser looks for the root right behind
the payload and its signature, so padding and signature must be equally long.

* `parseFromBytes_wire` — headers and payload are always read back;
* `parseFromBytes_wire_iff` — when the root and the proof are read back too.
-/
import Sg32.Shred

namespace Sg32

open Bytes

/-! ### Headers -/

def ShredCommonHeader.bytes (h : ShredCommonHeader) : Bytes :=
  h.signature.toList ++ ([h.shred_variant] ++
    (le64 h.slot ++ (le32 h.index ++ (le16 h.version ++ le32 h.fec_set_index))))

def DataShredHeader.bytes (h : DataShredHeader) : Bytes :=
  le16 h.parent_offset ++ ([h.flags] ++ le16 h.size)

def CodingShredHeader.bytes (h : CodingShredHeader) : Bytes :=
  le16 h.num_data_shreds ++ (le16 h.num_coding_shreds ++ le16 h.position)

@[simp] theorem ShredCommonHeader.length_bytes (h : ShredCommonHeader) :
    h.bytes.length = SIZE_OF_COMMON_HEADER := by
  simp [ShredCommonHeader.bytes, SIZE_OF_COMMON_HEADER]

@[simp] theorem DataShredHeader.length_bytes (h : DataShredHeader) :
    h.bytes.length = SIZE_OF_DATA_HEADER := by
  simp [DataShredHeader.bytes, SIZE_OF_DATA_HEADER]

@[simp] theorem CodingShredHeader.length_bytes (h : CodingShredHeader) :
    h.bytes.length = SIZE_OF_CODING_HEADER := by
  simp [CodingShredHeader.bytes, SIZE_OF_CODING_HEADER]

theorem ShredCommonHeader.variant_bytes (h : ShredCommonHeader) (post : Bytes) :
    (h.bytes ++ post)[64]? = some h.shred_variant := by
  rw [ShredCommonHeader.bytes, List.append_assoc, List.getElem?_append_right (by simp)]
  simp

theorem ShredCommonHeader.fromBytes_bytes (h : ShredCommonHeader) (post : Bytes) :
    ShredCommonHeader.fromBytes (h.bytes ++ post) = some h := by
  have hsignature : readArr 64 (h.bytes ++ post) 0 = some h.signature := by
    rw [ShredCommonHeader.bytes, List.append_assoc]
    exact getArr_append [] _ rfl
  have hslot : getLe (h.bytes ++ post) 65 73 = some h.slot.toNat := by
    have := getLe_append (h.signature.toList ++ [h.shred_variant])
      (le32 h.index ++ (le16 h.version ++ (le32 h.fec_set_index ++ post)))
      (a := 65) (b := 73) (by simp) (by simp) (leNat_le64 h.slot)
    simpa [ShredCommonHeader.bytes] using this
  have hindex : getLe (h.bytes ++ post) 73 77 = some h.index.toNat := by
    have := getLe_append (h.signature.toList ++ ([h.shred_variant] ++ le64 h.slot))
      (le16 h.version ++ (le32 h.fec_set_index ++ post))
      (a := 73) (b := 77) (by simp) (by simp) (leNat_le32 h.index)
    simpa [ShredCommonHeader.bytes] using this
  have hversion : getLe (h.bytes ++ post) 77 79 = some h.version.toNat := by
    have := getLe_append
      (h.signature.toList ++ ([h.shred_variant] ++ (le64 h.slot ++ le32 h.index)))
      (le32 h.fec_set_index ++ post)
      (a := 77) (b := 79) (by simp) (by simp) (leNat_le16 h.version)
    simpa [ShredCommonHeader.bytes] using this
  have hfec : getLe (h.bytes ++ post) 79 83 = some h.fec_set_index.toNat := by
    have := getLe_append (h.signature.toList ++ ([h.shred_variant] ++
        (le64 h.slot ++ (le32 h.index ++ le16 h.version))))
      post (a := 79) (b := 83) (by simp) (by simp) (leNat_le32 h.fec_set_index)
    simpa [ShredCommonHeader.bytes] using this
  rw [ShredCommonHeader.fromBytes, hsignature, h.variant_bytes, hslot, hindex, hversion, hfec]
  simp

theorem DataShredHeader.deserialize_bytes (h : DataShredHeader) :
    DataShredHeader.deserialize h.bytes = some h := by
  have hparent : getLe h.bytes 0 2 = some h.parent_offset.toNat :=
    getLe_append [] _ rfl rfl (leNat_le16 h.parent_offset)
  have hflags : h.bytes[2]? = some h.flags := by
    rw [DataShredHeader.bytes, List.getElem?_append_right (by simp)]
    simp
  have hsize : getLe h.bytes 3 5 = some h.size.toNat := by
    have := getLe_append (le16 h.parent_offset ++ [h.flags]) []
      (a := 3) (b := 5) (by simp) (by simp) (leNat_le16 h.size)
    simpa [DataShredHeader.bytes] using this
  rw [DataShredHeader.deserialize, hparent, hflags, hsize]
  simp

theorem CodingShredHeader.deserialize_bytes (h : CodingShredHeader) :
    CodingShredHeader.deserialize h.bytes = some h := by
  have hdata : getLe h.bytes 0 2 = some h.num_data_shreds.toNat :=
    getLe_append [] _ rfl rfl (leNat_le16 h.num_data_shreds)
  have hcode : getLe h.bytes 2 4 = some h.num_coding_shreds.toNat :=
    getLe_append (le16 h.num_data_shreds) _ (by simp) (by simp)
      (leNat_le16 h.num_coding_shreds)
  have hposition : getLe h.bytes 4 6 = some h.position.toNat := by
    have := getLe_append (le16 h.num_data_shreds ++ le16 h.num_coding_shreds) []
      (a := 4) (b := 6) (by simp) (by simp) (leNat_le16 h.position)
    simpa [CodingShredHeader.bytes] using this
  rw [CodingShredHeader.deserialize, hdata, hcode, hposition]
  simp

/-! ### Layout -/

/-- What a leader puts behind the payload and its padding. -/
structure ShredSeal where
  merkle_root : Vector UInt8 32
  merkle_proof : List (Vector UInt8 20)
  retransmitter_signature : Option (Vector UInt8 64)
  proof_size_le : merkle_proof.length ≤ 15
  deriving DecidableEq

namespace ShredSeal

def resigned (footer : ShredSeal) : Bool := footer.retransmitter_signature.isSome

def proofSize (footer : ShredSeal) : UInt8 := .ofNat footer.merkle_proof.length

/-- The root and the proof. -/
def merkle (footer : ShredSeal) : Bytes := sealBytes footer.merkle_root footer.merkle_proof

/-- The retransmitter signature, or nothing. -/
def trailer (footer : ShredSeal) : Bytes :=
  (footer.retransmitter_signature.map Vector.toList).getD []

def bytes (footer : ShredSeal) : Bytes := footer.merkle ++ footer.trailer

@[simp] theorem toNat_proofSize (footer : ShredSeal) :
    footer.proofSize.toNat = footer.merkle_proof.length := by
  have hle := footer.proof_size_le
  rw [proofSize, UInt8.toNat_ofNat']
  omega

@[simp] theorem length_merkle (footer : ShredSeal) :
    footer.merkle.length = 32 + 20 * footer.merkle_proof.length := length_sealBytes _ _

@[simp] theorem length_trailer (footer : ShredSeal) :
    footer.trailer.length = sizeOfResigned footer.resigned := by
  rcases footer with ⟨root, proof, _ | signature, hle⟩
  · rfl
  · simp [trailer, resigned, sizeOfResigned, SIZE_OF_SIGNATURE]

end ShredSeal

/-- A data shred as it is laid out: `size` covers headers and payload, and the
packet has `SIZE_OF_DATA_SHRED` bytes. -/
structure WireData where
  common_header : ShredCommonHeader
  data_header : DataShredHeader
  payload : Bytes
  footer : ShredSeal
  variant : common_header.shred_variant =
    (ShredVariant.merkleData footer.proofSize footer.resigned).toU8
  size : data_header.size.toNat = 88 + payload.length
  fits : 88 + payload.length + footer.bytes.length ≤ SIZE_OF_DATA_SHRED

/-- A code shred as it is laid out: the payload fills the packet up to
`SIZE_OF_CODING_SHRED` bytes. -/
structure WireCode where
  common_header : ShredCommonHeader
  coding_header : CodingShredHeader
  payload : Bytes
  footer : ShredSeal
  variant : common_header.shred_variant =
    (ShredVariant.merkleCode footer.proofSize footer.resigned).toU8
  full : 89 + payload.length + footer.bytes.length = SIZE_OF_CODING_SHRED

namespace WireData

def padding (wire : WireData) : ℕ :=
  SIZE_OF_DATA_SHRED - (88 + wire.payload.length + wire.footer.bytes.length)

def packet (wire : WireData) : Bytes :=
  wire.common_header.bytes ++ (wire.data_header.bytes ++ (wire.payload ++
    (List.replicate wire.padding 0 ++ wire.footer.bytes)))

/-- What the parser should return. -/
def shred (wire : WireData) : Shred :=
  .merkleData wire.common_header wire.data_header wire.footer.merkle_root
    wire.footer.merkle_proof wire.payload

end WireData

namespace WireCode

def packet (wire : WireCode) : Bytes :=
  wire.common_header.bytes ++ (wire.coding_header.bytes ++ (wire.payload ++ wire.footer.bytes))

/-- What the parser should return. -/
def shred (wire : WireCode) : Shred :=
  .merkleCode wire.common_header wire.coding_header wire.footer.merkle_root
    wire.footer.merkle_proof wire.payload

end WireCode

/-! ### Parsing a packet -/

theorem WireData.length_packet (wire : WireData) : wire.packet.length = SIZE_OF_DATA_SHRED := by
  have hfits := wire.fits
  simp only [packet, padding, List.length_append, ShredCommonHeader.length_bytes,
    DataShredHeader.length_bytes, List.length_replicate, SIZE_OF_COMMON_HEADER,
    SIZE_OF_DATA_HEADER, SIZE_OF_DATA_SHRED] at hfits ⊢
  omega

theorem WireCode.length_packet (wire : WireCode) :
    wire.packet.length = SIZE_OF_CODING_SHRED := by
  have hfull := wire.full
  simp only [packet, List.length_append, ShredCommonHeader.length_bytes,
    CodingShredHeader.length_bytes, SIZE_OF_COMMON_HEADER, SIZE_OF_CODING_HEADER,
    SIZE_OF_CODING_SHRED] at hfull ⊢
  omega

/-- The payload length that the parser computes is the one of the layout. -/
theorem WireCode.codeLen_eq (wire : WireCode) :
    Shred.codeLen wire.footer.merkle_proof.length wire.footer.resigned =
      wire.payload.length := by
  have hfull := wire.full
  simp only [ShredSeal.bytes, List.length_append, ShredSeal.length_merkle,
    ShredSeal.length_trailer, SIZE_OF_CODING_SHRED] at hfull
  simp only [Shred.codeLen, SIZE_OF_CODING_SHRED, SIZE_OF_COMMON_HEADER, SIZE_OF_CODING_HEADER,
    SIZE_OF_MERKLE_ROOT, SIZE_OF_MERKLE_PROOF_ENTRY]
  omega

theorem variant_packet {common_header : ShredCommonHeader} {variant : ShredVariant} {post : Bytes}
    (hvariant : common_header.shred_variant = variant.toU8)
    (hsize : variant.proofSize.toNat ≤ 15) :
    getShredVariant (common_header.bytes ++ post) = some variant := by
  rw [getShredVariant, common_header.variant_bytes, hvariant]
  exact ShredVariant.fromU8_toU8 hsize

/-- The headers and the payload of a data shred are read back; the root and
the proof are sought behind the payload and one signature. -/
theorem WireData.parseFromBytes_packet (wire : WireData) :
    Shred.parseFromBytes wire.packet = (do
      let off := 88 + wire.payload.length + sizeOfResigned wire.footer.resigned
      let merkle_root ← readArr 32 wire.packet off
      let merkle_proof ← readProof wire.packet wire.footer.merkle_proof.length (off + 32)
      some (.merkleData wire.common_header wire.data_header merkle_root merkle_proof
        wire.payload)) := by
  have hcommon : ShredCommonHeader.fromBytes wire.packet = some wire.common_header :=
    wire.common_header.fromBytes_bytes _
  have hvariant : getShredVariant wire.packet =
      some (.merkleData wire.footer.proofSize wire.footer.resigned) :=
    variant_packet wire.variant (by
      rw [ShredVariant.proofSize, ShredSeal.toNat_proofSize]
      exact wire.footer.proof_size_le)
  have hheader : getRange wire.packet 83 88 = some wire.data_header.bytes :=
    getRange_append (by simp [SIZE_OF_COMMON_HEADER]) (by simp [SIZE_OF_DATA_HEADER])
  have hpayload : (if 88 + wire.payload.length > 88 then
      getRange wire.packet 88 (88 + wire.payload.length) else some []) = some wire.payload := by
    split_ifs with hpos
    · rw [packet, ← List.append_assoc]
      exact getRange_append (by simp [SIZE_OF_COMMON_HEADER, SIZE_OF_DATA_HEADER]) rfl
    · rw [List.eq_nil_of_length_eq_zero (by omega : wire.payload.length = 0)]
  simp only [Shred.parseFromBytes, Option.bind_eq_bind, hvariant, Option.bind_some,
    hcommon, Shred.parseData, SIZE_OF_COMMON_HEADER, SIZE_OF_DATA_HEADER, Nat.reduceAdd, hheader,
    wire.data_header.deserialize_bytes, wire.size, hpayload, ShredSeal.toNat_proofSize]

theorem WireCode.parseFromBytes_packet (wire : WireCode) :
    Shred.parseFromBytes wire.packet = (do
      let off := 89 + wire.payload.length + sizeOfResigned wire.footer.resigned
      let merkle_root ← readArr 32 wire.packet off
      let merkle_proof ← readProof wire.packet wire.footer.merkle_proof.length (off + 32)
      some (.merkleCode wire.common_header wire.coding_header merkle_root merkle_proof
        wire.payload)) := by
  have hcommon : ShredCommonHeader.fromBytes wire.packet = some wire.common_header :=
    wire.common_header.fromBytes_bytes _
  have hvariant : getShredVariant wire.packet =
      some (.merkleCode wire.footer.proofSize wire.footer.resigned) :=
    variant_packet wire.variant (by
      rw [ShredVariant.proofSize, ShredSeal.toNat_proofSize]
      exact wire.footer.proof_size_le)
  have hheader : getRange wire.packet 83 89 = some wire.coding_header.bytes :=
    getRange_append (by simp [SIZE_OF_COMMON_HEADER]) (by simp [SIZE_OF_CODING_HEADER])
  have hpayload : getRange wire.packet 89 (89 + wire.payload.length) = some wire.payload := by
    rw [packet, ← List.append_assoc]
    exact getRange_append (by simp [SIZE_OF_COMMON_HEADER, SIZE_OF_CODING_HEADER]) rfl
  simp only [Shred.parseFromBytes, Option.bind_eq_bind, hvariant, Option.bind_some,
    hcommon, Shred.parseCode, SIZE_OF_COMMON_HEADER, SIZE_OF_CODING_HEADER, Nat.reduceAdd, hheader,
    wire.coding_header.deserialize_bytes, ShredSeal.toNat_proofSize, wire.codeLen_eq, hpayload]

/-! ### The root and the proof -/

/-- A shred of either type as it is laid out. -/
inductive WireShred
  | data (wire : WireData)
  | code (wire : WireCode)

namespace WireShred

def footer : WireShred → ShredSeal
  | .data wire => wire.footer
  | .code wire => wire.footer

/-- The zeros between the payload and the root; a code shred has none. -/
def padding : WireShred → ℕ
  | .data wire => wire.padding
  | .code _ => 0

def packet : WireShred → Bytes
  | .data wire => wire.packet
  | .code wire => wire.packet

def shred : WireShred → Shred
  | .data wire => wire.shred
  | .code wire => wire.shred

/-- The bytes up to the padding: headers and payload. -/
def front : WireShred → Bytes
  | .data wire => wire.common_header.bytes ++ (wire.data_header.bytes ++ wire.payload)
  | .code wire => wire.common_header.bytes ++ (wire.coding_header.bytes ++ wire.payload)

/-- The shred with the headers and the payload of the layout, and any root and
proof. -/
def shredWith (wire : WireShred) (merkle_root : Vector UInt8 32)
    (merkle_proof : List (Vector UInt8 20)) : Shred :=
  match wire with
  | .data wire => .merkleData wire.common_header wire.data_header merkle_root merkle_proof
      wire.payload
  | .code wire => .merkleCode wire.common_header wire.coding_header merkle_root merkle_proof
      wire.payload

theorem packet_eq (wire : WireShred) :
    wire.packet = wire.front ++ (List.replicate wire.padding 0 ++ wire.footer.bytes) := by
  cases wire with
  | data wire => simp [packet, front, padding, footer, WireData.packet]
  | code wire => simp [packet, front, padding, footer, WireCode.packet]

theorem shred_eq (wire : WireShred) :
    wire.shred = wire.shredWith wire.footer.merkle_root wire.footer.merkle_proof := by
  cases wire <;> rfl

/-- Both parsers seek the root behind the payload and one signature. -/
theorem parseFromBytes_packet (wire : WireShred) :
    Shred.parseFromBytes wire.packet = (do
      let off := wire.front.length + sizeOfResigned wire.footer.resigned
      let merkle_root ← readArr 32 wire.packet off
      let merkle_proof ← readProof wire.packet wire.footer.merkle_proof.length (off + 32)
      some (wire.shredWith merkle_root merkle_proof)) := by
  cases wire with
  | data wire =>
    have hfront : (front (.data wire)).length = 88 + wire.payload.length := by
      simp only [front, List.length_append, ShredCommonHeader.length_bytes,
        DataShredHeader.length_bytes, SIZE_OF_COMMON_HEADER, SIZE_OF_DATA_HEADER]
      omega
    rw [hfront]
    exact wire.parseFromBytes_packet
  | code wire =>
    have hfront : (front (.code wire)).length = 89 + wire.payload.length := by
      simp only [front, List.length_append, ShredCommonHeader.length_bytes,
        CodingShredHeader.length_bytes, SIZE_OF_COMMON_HEADER, SIZE_OF_CODING_HEADER]
      omega
    rw [hfront]
    exact wire.parseFromBytes_packet

/-- The root and the proof that are read are what stands one signature behind
the payload. -/
theorem parseFromBytes_eq_some_iff (wire : WireShred) {merkle_root : Vector UInt8 32}
    {merkle_proof : List (Vector UInt8 20)} :
    Shred.parseFromBytes wire.packet = some (wire.shredWith merkle_root merkle_proof) ↔
      merkle_proof.length = wire.footer.merkle_proof.length ∧
        getRange (List.replicate wire.padding 0 ++ wire.footer.bytes)
          (sizeOfResigned wire.footer.resigned)
          (sizeOfResigned wire.footer.resigned + wire.footer.merkle.length) =
            some (sealBytes merkle_root merkle_proof) := by
  have hinj : ∀ (r r' : Vector UInt8 32) (p p' : List (Vector UInt8 20)),
      wire.shredWith r p = wire.shredWith r' p' ↔ r = r' ∧ p = p' := by
    intro r r' p p'
    cases wire <;> simp [shredWith]
  have hread : Shred.parseFromBytes wire.packet = some (wire.shredWith merkle_root merkle_proof) ↔
      readArr 32 wire.packet (wire.front.length + sizeOfResigned wire.footer.resigned) =
          some merkle_root ∧
        readProof wire.packet wire.footer.merkle_proof.length
          (wire.front.length + sizeOfResigned wire.footer.resigned + 32) = some merkle_proof := by
    rw [parseFromBytes_packet]
    simp only [Option.bind_eq_bind, Option.bind_eq_some_iff, Option.some.injEq, hinj]
    constructor
    · rintro ⟨r, hr, p, hp, rfl, rfl⟩
      exact ⟨hr, hp⟩
    · rintro ⟨hr, hp⟩
      exact ⟨_, hr, _, hp, rfl, rfl⟩
  rw [hread, readSeal_iff, packet_eq, ShredSeal.length_merkle, Nat.add_assoc, Nat.add_assoc,
    getRange_skip rfl]

/-- The headers and the payload are always read back. -/
theorem parseFromBytes_wire (wire : WireShred) :
    ∃ merkle_root merkle_proof,
      Shred.parseFromBytes wire.packet = some (wire.shredWith merkle_root merkle_proof) := by
  have hbound : sizeOfResigned wire.footer.resigned + wire.footer.merkle.length ≤
      (List.replicate wire.padding 0 ++ wire.footer.bytes).length := by
    rw [List.length_append, List.length_replicate, ShredSeal.bytes, List.length_append,
      ShredSeal.length_trailer]
    omega
  obtain ⟨area, hrange⟩ : ∃ area, getRange (List.replicate wire.padding 0 ++ wire.footer.bytes)
      (sizeOfResigned wire.footer.resigned)
      (sizeOfResigned wire.footer.resigned + wire.footer.merkle.length) = some area :=
    ⟨_, getRange_of_le (Nat.le_add_right _ _) hbound⟩
  have hlen := length_of_getRange hrange
  rw [Nat.add_sub_cancel_left, ShredSeal.length_merkle] at hlen
  obtain ⟨merkle_root, merkle_proof, hproof, hseal⟩ := exists_sealBytes hlen
  exact ⟨merkle_root, merkle_proof,
    (parseFromBytes_eq_some_iff wire).mpr ⟨hproof, by rw [hseal, hrange]⟩⟩

/-- **When parsing undoes the layout**: the padding is as long as the
retransmitter signature; or it is longer, and the root and the proof are zero;
or it is shorter, and they repeat at that distance into the signature. -/
theorem parseFromBytes_wire_iff (wire : WireShred) :
    Shred.parseFromBytes wire.packet = some wire.shred ↔
      wire.padding = wire.footer.trailer.length ∨
      (wire.footer.trailer.length < wire.padding ∧ ∀ b ∈ wire.footer.merkle, b = 0) ∨
      (wire.padding < wire.footer.trailer.length ∧ ∀ i < wire.footer.merkle.length,
        (wire.footer.merkle ++ wire.footer.trailer)[i +
          (wire.footer.trailer.length - wire.padding)]? = wire.footer.merkle[i]?) := by
  rw [shred_eq, parseFromBytes_eq_some_iff]
  simp only [true_and]
  rw [← ShredSeal.length_trailer]
  exact getRange_padded_iff rfl

/-- The headers of a sample shred, in slot 42. -/
def sampleCommonHeader (shred_variant : UInt8) (index : UInt32) : ShredCommonHeader where
  signature := Vector.replicate 64 170
  shred_variant := shred_variant
  slot := 42
  index := index
  version := 7016
  fec_set_index := 0

/-- A root without a proof that is not resigned. -/
@[simps] def bareSeal (merkle_root : Vector UInt8 32) : ShredSeal where
  merkle_root := merkle_root
  merkle_proof := []
  retransmitter_signature := none
  proof_size_le := Nat.zero_le _

/-- A data shred with one byte of payload that is not resigned. -/
def sampleData (index : UInt32) (byte : UInt8) : WireData where
  common_header := sampleCommonHeader 0x90 index
  data_header := { parent_offset := 1, flags := 0, size := 89 }
  payload := [byte]
  footer := bareSeal (Vector.replicate 32 187)
  variant := rfl
  size := rfl
  fits := by simp [ShredSeal.bytes, ShredSeal.resigned, sizeOfResigned, SIZE_OF_DATA_SHRED]

/-- The root of a short payload is sought in the padding. -/
theorem parseFromBytes_shortData :
    ¬ ∀ wire : WireShred, Shred.parseFromBytes wire.packet = some wire.shred := by
  intro h
  have hshort : Shred.parseFromBytes (sampleData 0 7).packet ≠ some (sampleData 0 7).shred := by
    decide +kernel
  exact hshort (h (.data (sampleData 0 7)))

end WireShred

end Sg32
