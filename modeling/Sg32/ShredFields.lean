/-
Reading single fields (the wire helpers of `shred_header.rs`).

Each helper reads one field of a packet by its offset and parses nothing else.
What it reads of a packet that is accepted is the field of the shred.

* `isDataComplete_of_isLastInSlot` — the last shred of a slot completes its data;
* `toU8_of_fromU8` — the variant says what the byte said;
* `fieldsAgree_of_parse` — the helpers agree with the parser.
-/
import Sg32.ShredLayout

namespace Sg32

open Bytes

inductive ShredType
  | data
  | code
  deriving DecidableEq

def ShredVariant.shredType : ShredVariant → ShredType
  | .merkleData _ _ => .data
  | .merkleCode _ _ => .code

/-- Two flags in the high bits of a byte; the low bits count ticks. -/
structure ShredFlags where
  bits : UInt8
  deriving DecidableEq

namespace ShredFlags

def DATA_COMPLETE : UInt8 := 0x40

def LAST_SHRED : UInt8 := 0xC0

def contains (flags : ShredFlags) (flag : UInt8) : Bool := flags.bits &&& flag = flag

def isDataComplete (flags : ShredFlags) : Bool := flags.contains DATA_COMPLETE

def isLastInSlot (flags : ShredFlags) : Bool := flags.contains LAST_SHRED

/-- The last shred of a slot completes its data. -/
theorem isDataComplete_of_isLastInSlot {flags : ShredFlags} (h : flags.isLastInSlot = true) :
    flags.isDataComplete = true := by
  have hall : ∀ n : Fin 256, isLastInSlot ⟨.ofNat n⟩ = true → isDataComplete ⟨.ofNat n⟩ = true := by
    decide +kernel
  have hflags := hall ⟨flags.bits.toNat, flags.bits.toNat_lt⟩
  rw [UInt8.ofNat_toNat] at hflags
  exact hflags h

end ShredFlags

namespace Shred

def index (shred : Shred) : UInt32 := shred.commonHeader.index

def shredType : Shred → ShredType
  | .merkleData _ _ _ _ _ => .data
  | .merkleCode _ _ _ _ _ => .code

end Shred

/-! ### Wire helpers -/

def getSignature (bytes : Bytes) : Option (Vector UInt8 64) := readArr 64 bytes 0

def getShredType (bytes : Bytes) : Option ShredType :=
  (getShredVariant bytes).map ShredVariant.shredType

def isData (bytes : Bytes) : Option Bool := (getShredType bytes).map (· = .data)

def isCode (bytes : Bytes) : Option Bool := (getShredType bytes).map (· = .code)

def getSlot (bytes : Bytes) : Option UInt64 := (getLe bytes 65 73).map .ofNat

def getIndex (bytes : Bytes) : Option UInt32 := (getLe bytes 73 77).map .ofNat

def getVersion (bytes : Bytes) : Option UInt16 := (getLe bytes 77 79).map .ofNat

def getFecSetIndex (bytes : Bytes) : Option UInt32 := (getLe bytes 79 83).map .ofNat

def getParentOffset (bytes : Bytes) : Option UInt16 := (getLe bytes 83 85).map .ofNat

def getFlags (bytes : Bytes) : Option ShredFlags := bytes[85]?.map .mk

def getDataSize (bytes : Bytes) : Option UInt16 := (getLe bytes 86 88).map .ofNat

def getNumDataShreds (bytes : Bytes) : Option UInt16 := (getLe bytes 83 85).map .ofNat

def getNumCodingShreds (bytes : Bytes) : Option UInt16 := (getLe bytes 85 87).map .ofNat

def getCodingPosition (bytes : Bytes) : Option UInt16 := (getLe bytes 87 89).map .ofNat

/-! ### Agreement with the parser -/

variable {bytes : Bytes} {shred : Shred}

/-- The helpers for the common header. -/
structure CommonFieldsAgree (bytes : Bytes) (header : ShredCommonHeader) : Prop where
  signature : getSignature bytes = some header.signature
  variant : (getShredVariant bytes).map ShredVariant.toU8 = some header.shred_variant
  slot : getSlot bytes = some header.slot
  index : getIndex bytes = some header.index
  version : getVersion bytes = some header.version
  fec_set_index : getFecSetIndex bytes = some header.fec_set_index

/-- The helpers for the header of a data shred or of a code shred. -/
def OwnFieldsAgree (bytes : Bytes) : Shred → Prop
  | .merkleData _ header _ _ _ =>
    getParentOffset bytes = some header.parent_offset ∧ getFlags bytes = some ⟨header.flags⟩ ∧
      getDataSize bytes = some header.size
  | .merkleCode _ header _ _ _ =>
    getNumDataShreds bytes = some header.num_data_shreds ∧
      getNumCodingShreds bytes = some header.num_coding_shreds ∧
      getCodingPosition bytes = some header.position

/-- The helpers for the kind of shred. -/
structure TypeAgrees (bytes : Bytes) (shredType : ShredType) : Prop where
  type : getShredType bytes = some shredType
  data : isData bytes = some (decide (shredType = .data))
  code : isCode bytes = some (decide (shredType = .code))

theorem TypeAgrees.of_type {shredType : ShredType} (h : getShredType bytes = some shredType) :
    TypeAgrees bytes shredType :=
  ⟨h, by rw [isData, h, Option.map_some], by rw [isCode, h, Option.map_some]⟩

/-- The variant says what the byte said. -/
theorem toU8_of_fromU8 {byte : UInt8} {variant : ShredVariant}
    (h : ShredVariant.fromU8 byte = some variant) : variant.toU8 = byte := by
  have hall : ∀ n : Fin 256, ∀ variant ∈ ShredVariant.fromU8 (.ofNat n),
      variant.toU8 = .ofNat n := by decide +kernel
  have hbyte := hall ⟨byte.toNat, byte.toNat_lt⟩
  rw [UInt8.ofNat_toNat] at hbyte
  exact hbyte variant h

theorem commonFieldsAgree {variant : ShredVariant} {header : ShredCommonHeader}
    (hvariant : getShredVariant bytes = some variant)
    (h : ShredCommonHeader.fromBytes bytes = some header) : CommonFieldsAgree bytes header := by
  rw [ShredCommonHeader.fromBytes] at h
  simp only [Option.bind_eq_bind, Option.bind_eq_some_iff, Option.some.injEq] at h
  obtain ⟨signature, hsignature, byte, hbyte, slot, hslot, index, hindex, version, hversion,
    fec_set_index, hset, rfl⟩ := h
  refine ⟨hsignature, ?_, ?_, ?_, ?_, ?_⟩
  · obtain ⟨byte', hbyte', hfrom⟩ := Option.bind_eq_some_iff.mp hvariant
    rw [hbyte] at hbyte'
    cases hbyte'
    rw [hvariant, Option.map_some, toU8_of_fromU8 hfrom]
  · rw [getSlot, hslot, Option.map_some]
  · rw [getIndex, hindex, Option.map_some]
  · rw [getVersion, hversion, Option.map_some]
  · rw [getFecSetIndex, hset, Option.map_some]

/-- A number of a header that starts at 83 is a number of the packet. -/
theorem getLe_header {header : Bytes} {n a b : ℕ} (h : getRange bytes 83 n = some header)
    (hb : 83 + b ≤ n) : getLe header a b = getLe bytes (83 + a) (83 + b) := by
  rw [getLe, getLe, getRange_of_getRange h a hb]

theorem getElem?_header {header : Bytes} {n i : ℕ} (h : getRange bytes 83 n = some header)
    (hi : 83 + i < n) : header[i]? = bytes[83 + i]? := by
  obtain ⟨-, rfl⟩ := getRange_eq_some.mp h
  rw [List.getElem?_take_of_lt (by omega), List.getElem?_drop]

theorem dataFieldsAgree {common_header : ShredCommonHeader} {proof_size : ℕ} {resigned : Bool}
    (h : Shred.parseData bytes common_header proof_size resigned = some shred) :
    shred.commonHeader = common_header ∧ shred.shredType = .data ∧ OwnFieldsAgree bytes shred := by
  simp only [Shred.parseData, Option.bind_eq_bind, Option.bind_eq_some_iff, Option.some.injEq] at h
  obtain ⟨header, hrange, data_header, hheader, data, -, root, -, proof, -, rfl⟩ := h
  simp only [DataShredHeader.deserialize, Option.bind_eq_bind, Option.bind_eq_some_iff,
    Option.some.injEq] at hheader
  obtain ⟨parent_offset, hparent, flags, hflags, size, hsize, rfl⟩ := hheader
  rw [getLe_header hrange (by decide)] at hparent hsize
  rw [getElem?_header hrange (by decide)] at hflags
  exact ⟨rfl, rfl, by rw [getParentOffset, hparent, Option.map_some],
    by rw [getFlags, hflags, Option.map_some], by rw [getDataSize, hsize, Option.map_some]⟩

theorem codeFieldsAgree {common_header : ShredCommonHeader} {proof_size : ℕ} {resigned : Bool}
    (h : Shred.parseCode bytes common_header proof_size resigned = some shred) :
    shred.commonHeader = common_header ∧ shred.shredType = .code ∧ OwnFieldsAgree bytes shred := by
  simp only [Shred.parseCode, Option.bind_eq_bind, Option.bind_eq_some_iff, Option.some.injEq] at h
  obtain ⟨header, hrange, coding_header, hheader, code, -, root, -, proof, -, rfl⟩ := h
  simp only [CodingShredHeader.deserialize, Option.bind_eq_bind, Option.bind_eq_some_iff,
    Option.some.injEq] at hheader
  obtain ⟨num_data, hdata, num_coding, hcoding, position, hposition, rfl⟩ := hheader
  rw [getLe_header hrange (by decide)] at hdata hcoding hposition
  exact ⟨rfl, rfl, by rw [getNumDataShreds, hdata, Option.map_some],
    by rw [getNumCodingShreds, hcoding, Option.map_some],
    by rw [getCodingPosition, hposition, Option.map_some]⟩

/-- **The helpers agree with the parser**, on every packet that it accepts. -/
theorem fieldsAgree_of_parse (h : Shred.parseFromBytes bytes = some shred) :
    CommonFieldsAgree bytes shred.commonHeader ∧ OwnFieldsAgree bytes shred ∧
      TypeAgrees bytes shred.shredType := by
  rw [Shred.parseFromBytes] at h
  simp only [Option.bind_eq_bind, Option.bind_eq_some_iff] at h
  obtain ⟨variant, hvariant, header, hheader, h⟩ := h
  have hcommon := commonFieldsAgree hvariant hheader
  have htypes : getShredType bytes = some variant.shredType := by
    rw [getShredType, hvariant, Option.map_some]
  cases variant with
  | merkleData proof_size resigned =>
    obtain ⟨rfl, htype, hown⟩ := dataFieldsAgree h
    exact ⟨hcommon, hown, .of_type (htypes.trans (congrArg some htype.symm))⟩
  | merkleCode proof_size resigned =>
    obtain ⟨rfl, htype, hown⟩ := codeFieldsAgree h
    exact ⟨hcommon, hown, .of_type (htypes.trans (congrArg some htype.symm))⟩

theorem fieldsAgree_of_parse_sample : ∃ shred,
    Shred.parseFromBytes (WireShred.sampleData 3 7).packet = some shred ∧
      getIndex (WireShred.sampleData 3 7).packet = some shred.index ∧
      getShredType (WireShred.sampleData 3 7).packet = some shred.shredType := by
  have hsome : (Shred.parseFromBytes (WireShred.sampleData 3 7).packet).isSome = true := by
    decide +kernel
  obtain ⟨shred, hshred⟩ := Option.isSome_iff_exists.mp hsome
  obtain ⟨hcommon, -, htype⟩ := fieldsAgree_of_parse hshred
  exact ⟨shred, hshred, hcommon.index, htype.type⟩

end Sg32
