/-
What the node makes of the packets that it receives (the last branch of the
main loop).

A packet that is not a ping is taken for the answer to a request: its last
four bytes are the nonce, whatever they are, and the shred is sought in front
of them.  A packet too short for a nonce holds no shred either.

* `parseFromBytes_prefix_iff` — a shred is read from its first bytes, up to
  where its proof ends;
* `shredOf_eq_some_iff` — exactly which shred is taken from a packet;
* `shredOf_wire` — a packet that answers a request is parsed without its nonce;
  one that was sent without a nonce is lost unless it ends in padding.
-/
import Sg32.Repair
import Sg32.ShredLayout
import Sg32.ShredSections

namespace Sg32

open Bytes

/-! ### How far a parser looks -/

section Prefix

variable {xs ys : Bytes} {a b : ℕ}

theorem getRange_extended (h : xs <+: ys) (hb : b ≤ xs.length) :
    getRange xs a b = getRange ys a b := by
  obtain ⟨zs, rfl⟩ := h
  by_cases hab : a ≤ b
  · rw [getRange_of_le hab hb, getRange_of_le hab (by rw [List.length_append]; omega),
      List.drop_append_of_le_length (hab.trans hb),
      List.take_append_of_le_length (by rw [List.length_drop]; omega)]
  · rw [getRange, getRange, if_neg (by omega), if_neg (by omega)]

theorem getLe_extended (h : xs <+: ys) (hb : b ≤ xs.length) : getLe xs a b = getLe ys a b := by
  rw [getLe, getLe, getRange_extended h hb]

theorem readArr_extended {N : ℕ} (h : xs <+: ys) (hb : a + N ≤ xs.length) :
    readArr N xs a = readArr N ys a := by
  rw [readArr, readArr, getArr, getArr, getRange_extended h hb]

theorem getElem?_extended {i : ℕ} (h : xs <+: ys) (hi : i < xs.length) : xs[i]? = ys[i]? := by
  obtain ⟨zs, rfl⟩ := h
  rw [List.getElem?_append_left hi]

theorem readProof_extended {n off : ℕ} (h : xs <+: ys) (hle : off + 20 * n ≤ xs.length) :
    readProof xs n off = readProof ys n off := by
  induction n generalizing off with
  | zero => rfl
  | succ n ih => rw [readProof, readProof, readArr_extended h (by omega), ih (by omega)]

theorem ShredCommonHeader.fromBytes_extended (h : xs <+: ys) (hle : 83 ≤ xs.length) :
    fromBytes xs = fromBytes ys := by
  rw [fromBytes, fromBytes, readArr_extended h (by omega), getElem?_extended h (by omega),
    getLe_extended h (by omega), getLe_extended h (by omega), getLe_extended h (by omega),
    getLe_extended h (by omega)]

theorem getShredVariant_extended (h : xs <+: ys) (hle : 65 ≤ xs.length) :
    getShredVariant xs = getShredVariant ys := by
  rw [getShredVariant, getShredVariant, getElem?_extended h (by omega)]

end Prefix

/-! ### Where the parser stops -/

namespace Shred

/-- The shred carries a retransmitter signature. -/
def isResigned (shred : Shred) : Bool :=
  ((ShredVariant.fromU8 shred.commonHeader.shred_variant).map ShredVariant.resigned).getD false

/-- The end of what the parser looks at: behind the proof. -/
def extent (shred : Shred) : ℕ :=
  match shred with
  | .merkleData _ data_header _ merkle_proof _ =>
    max 88 (data_header.size.toNat + sizeOfResigned shred.isResigned + 32 +
      20 * merkle_proof.length)
  | .merkleCode _ _ _ _ _ => SIZE_OF_CODING_SHRED

end Shred

section Parse

variable {xs ys : Bytes} {common_header : ShredCommonHeader} {variant : ShredVariant}
  {shred : Shred}

/-- The variant that the parser goes by is the one in the header. -/
theorem fromU8_shred_variant (hvariant : getShredVariant xs = some variant)
    (hcommon : ShredCommonHeader.fromBytes xs = some common_header) :
    ShredVariant.fromU8 common_header.shred_variant = some variant := by
  simp only [ShredCommonHeader.fromBytes, Option.bind_eq_bind, Option.bind_eq_some_iff,
    Option.some.injEq] at hcommon
  obtain ⟨-, -, byte, hbyte, -, -, -, -, -, -, -, -, rfl⟩ := hcommon
  rw [getShredVariant, hbyte] at hvariant
  exact hvariant

theorem parseData_prefix_iff {n : ℕ} {resigned : Bool} (h : xs <+: ys)
    (hresigned : ∀ shred : Shred, shred.commonHeader = common_header →
      shred.isResigned = resigned) :
    Shred.parseData xs common_header n resigned = some shred ↔
      Shred.parseData ys common_header n resigned = some shred ∧ shred.extent ≤ xs.length := by
  rw [parseData_eq_some_iff, parseData_eq_some_iff]
  constructor
  · rintro ⟨header, data_header, merkle_root, merkle_proof, data, rfl, hheader, hdeserialize, hdata,
      hroot, hproof⟩
    have hmin : 88 ≤ xs.length := (getRange_eq_some.mp hheader).1.2
    have hmax := (getRange_eq_some.mp hdata).1.2
    have hseal := exists_seal_iff.mp ⟨merkle_root, merkle_proof, hroot, hproof⟩
    obtain ⟨rfl, -⟩ := readSeal_iff.mp ⟨hroot, hproof⟩
    rw [getRange_extended h hmin] at hheader
    rw [getRange_extended h hmax] at hdata
    rw [readArr_extended h (by omega)] at hroot
    rw [readProof_extended h hseal] at hproof
    refine ⟨⟨header, data_header, merkle_root, merkle_proof, data, rfl, hheader, hdeserialize,
      hdata, hroot, hproof⟩, ?_⟩
    rw [Shred.extent, hresigned _ rfl]
    exact max_le hmin hseal
  · rintro ⟨⟨header, data_header, merkle_root, merkle_proof, data, rfl, hheader, hdeserialize,
      hdata, hroot, hproof⟩, hle⟩
    obtain ⟨rfl, -⟩ := readSeal_iff.mp ⟨hroot, hproof⟩
    rw [Shred.extent, hresigned _ rfl] at hle
    have hmin := (le_max_left _ _).trans hle
    have hseal := (le_max_right _ _).trans hle
    rw [← getRange_extended h hmin] at hheader
    rw [← getRange_extended h (by omega)] at hdata
    rw [← readArr_extended h (by omega)] at hroot
    rw [← readProof_extended h hseal] at hproof
    exact ⟨header, data_header, merkle_root, merkle_proof, data, rfl, hheader, hdeserialize, hdata,
      hroot, hproof⟩

theorem codeLen_add {n : ℕ} (hn : n ≤ 15) (resigned : Bool) :
    89 + Shred.codeLen n resigned + sizeOfResigned resigned + 32 + 20 * n =
      SIZE_OF_CODING_SHRED := by
  have hsize : sizeOfResigned resigned ≤ 64 := by cases resigned <;> decide
  simp only [Shred.codeLen, SIZE_OF_CODING_SHRED, SIZE_OF_COMMON_HEADER, SIZE_OF_CODING_HEADER,
    SIZE_OF_MERKLE_ROOT, SIZE_OF_MERKLE_PROOF_ENTRY]
  omega

theorem parseCode_extended {n : ℕ} {resigned : Bool} (hn : n ≤ 15) (h : xs <+: ys)
    (hle : SIZE_OF_CODING_SHRED ≤ xs.length) :
    Shred.parseCode xs common_header n resigned = Shred.parseCode ys common_header n resigned := by
  have hend := codeLen_add hn resigned
  have hlong : 89 ≤ xs.length := le_trans (by decide) hle
  simp only [Shred.parseCode, SIZE_OF_COMMON_HEADER, SIZE_OF_CODING_HEADER, Nat.reduceAdd]
  rw [getRange_extended h hlong, getRange_extended h (by omega)]
  simp only [readArr_extended h (show 89 + Shred.codeLen n resigned + sizeOfResigned resigned + 32 ≤
    xs.length by omega), readProof_extended h (show 89 + Shred.codeLen n resigned +
    sizeOfResigned resigned + 32 + 20 * n ≤ xs.length by omega)]

theorem parseCode_prefix_iff {n : ℕ} {resigned : Bool} (hn : n ≤ 15) (h : xs <+: ys) :
    Shred.parseCode xs common_header n resigned = some shred ↔
      Shred.parseCode ys common_header n resigned = some shred ∧ shred.extent ≤ xs.length := by
  have hend := codeLen_add hn resigned
  constructor
  · intro hparse
    obtain ⟨coding_header, merkle_root, merkle_proof, code, rfl, -, hroot, hproof⟩ :=
      parseCode_eq_some hparse
    have hle := exists_seal_iff.mp ⟨merkle_root, merkle_proof, hroot, hproof⟩
    rw [hend] at hle
    exact ⟨by rw [← parseCode_extended hn h hle, hparse], hle⟩
  · rintro ⟨hparse, hle⟩
    obtain ⟨coding_header, merkle_root, merkle_proof, code, rfl, -, -, -⟩ :=
      parseCode_eq_some hparse
    rw [parseCode_extended hn h hle, hparse]

theorem le_of_fromBytes (h : ShredCommonHeader.fromBytes xs = some common_header) :
    83 ≤ xs.length := by
  simp only [ShredCommonHeader.fromBytes, Option.bind_eq_bind, Option.bind_eq_some_iff] at h
  obtain ⟨_, _, _, _, _, _, _, _, _, _, _, hlast, _⟩ := h
  exact le_of_getLe hlast

theorem le_extent (shred : Shred) : 83 ≤ shred.extent := by
  cases shred with
  | merkleData _ _ _ _ _ => exact le_max_of_le_left (by decide)
  | merkleCode _ _ _ _ _ => exact (by decide : 83 ≤ SIZE_OF_CODING_SHRED)

theorem parse_variant_prefix_iff (h : xs <+: ys) :
    ShredVariant.fromU8 common_header.shred_variant = some variant →
    ((match variant with
      | .merkleData n resigned => Shred.parseData xs common_header n.toNat resigned
      | .merkleCode n resigned => Shred.parseCode xs common_header n.toNat resigned) =
        some shred ↔
      (match variant with
        | .merkleData n resigned => Shred.parseData ys common_header n.toNat resigned
        | .merkleCode n resigned => Shred.parseCode ys common_header n.toNat resigned) =
          some shred ∧ shred.extent ≤ xs.length) := by
  intro hvariant
  cases variant with
  | merkleData n resigned =>
    refine parseData_prefix_iff h fun shred hcommon => ?_
    rw [Shred.isResigned, hcommon, hvariant]
    rfl
  | merkleCode n resigned =>
    exact parseCode_prefix_iff (ShredVariant.proofSize_le_of_fromU8 hvariant) h

/-- **A shred is read from the bytes up to where its proof ends**: any beginning
of a packet that reaches so far gives the same shred, and a shorter one none. -/
theorem parseFromBytes_prefix_iff (h : xs <+: ys) :
    Shred.parseFromBytes xs = some shred ↔
      Shred.parseFromBytes ys = some shred ∧ shred.extent ≤ xs.length := by
  simp only [Shred.parseFromBytes, Option.bind_eq_bind, Option.bind_eq_some_iff]
  constructor
  · rintro ⟨variant, hvariant, common_header, hcommon, hparse⟩
    have hle := le_of_fromBytes hcommon
    have hbyte := fromU8_shred_variant hvariant hcommon
    rw [getShredVariant_extended h (by omega)] at hvariant
    rw [ShredCommonHeader.fromBytes_extended h hle] at hcommon
    obtain ⟨hparse, hextent⟩ := (parse_variant_prefix_iff h hbyte).mp hparse
    exact ⟨⟨variant, hvariant, common_header, hcommon, hparse⟩, hextent⟩
  · rintro ⟨⟨variant, hvariant, common_header, hcommon, hparse⟩, hextent⟩
    have hle := (le_extent shred).trans hextent
    have hbyte := fromU8_shred_variant hvariant hcommon
    rw [← getShredVariant_extended h (by omega)] at hvariant
    rw [← ShredCommonHeader.fromBytes_extended h hle] at hcommon
    exact ⟨variant, hvariant, common_header, hcommon,
      (parse_variant_prefix_iff h hbyte).mpr ⟨hparse, hextent⟩⟩

end Parse

/-! ### Packets -/

/-- The shred that the main loop takes from a packet. -/
def shredOf (packet : Bytes) : Option Shred :=
  match parseResponse packet with
  | some (.ping _ _) => none
  | some (.shred bytes _) => Shred.parseFromBytes bytes
  | none => Shred.parseFromBytes packet

variable {packet : Bytes} {shred : Shred}

theorem shredOf_ping (h : IsPing packet) : shredOf packet = none := by
  obtain ⟨ping, rfl⟩ := isPing_iff.mp h
  rw [shredOf, parseResponse_pingPacket]

theorem parseFromBytes_short (h : packet.length < 83) : Shred.parseFromBytes packet = none := by
  rw [Option.eq_none_iff_forall_not_mem]
  intro shred hshred
  have hle := ((parseFromBytes_prefix_iff (List.prefix_refl packet)).mp hshred).2
  have := le_extent shred
  omega

/-- **The last four bytes of a packet are never part of a shred**: a packet
that is not a ping gives the shred that it begins with, if that ends four bytes
before its end. -/
theorem shredOf_eq_some_iff : shredOf packet = some shred ↔
    ¬ IsPing packet ∧ Shred.parseFromBytes packet = some shred ∧
      shred.extent + 4 ≤ packet.length := by
  by_cases hping : IsPing packet
  · rw [shredOf_ping hping]
    simp [hping]
  by_cases hshort : packet.length < 5
  · have hnone : parseRepairResponse packet = none := if_pos hshort
    rw [shredOf, parseResponse_of_not_isPing hping, hnone]
    simp [parseFromBytes_short (show packet.length < 83 by omega)]
  · obtain ⟨bytes, nonce, hresponse⟩ : ∃ bytes nonce,
        parseRepairResponse packet = some (bytes, nonce) := by
      rw [parseRepairResponse, if_neg hshort]
      exact ⟨_, _, rfl⟩
    obtain ⟨rfl, -⟩ := parseRepairResponse_eq_some_iff.mp hresponse
    rw [shredOf, parseResponse_of_not_isPing hping, hresponse]
    show Shred.parseFromBytes bytes = some shred ↔ _
    rw [parseFromBytes_prefix_iff (List.prefix_append bytes (le32 nonce)), List.length_append,
      length_le32, Nat.add_le_add_iff_right]
    simp [hping]

/-- The answer to a request gives the shred in front of the nonce. -/
theorem shredOf_append_nonce (nonce : UInt32) (hlen : packet.length ≠ 128) (hpos : packet ≠ []) :
    shredOf (packet ++ le32 nonce) = Shred.parseFromBytes packet := by
  have hresponse : parseResponse (packet ++ le32 nonce) = some (.shred packet nonce) := by
    refine parseResponse_eq_shred_iff.mpr ⟨?_, rfl, hpos⟩
    rintro ⟨hping, -⟩
    rw [List.length_append, length_le32, PING_BYTES] at hping
    omega
  rw [shredOf, hresponse]

/-! ### Packets of the wire format -/

namespace WireShred

theorem length_packet_ge (wire : WireShred) : SIZE_OF_DATA_SHRED ≤ wire.packet.length := by
  cases wire with
  | data wire => exact wire.length_packet.ge
  | code wire => exact le_of_le_of_eq (by decide) wire.length_packet.symm

/-- The parser stops where the padding of a shred would begin if the padding
came last. -/
theorem extent_shredWith (wire : WireShred) (merkle_root : Vector UInt8 32)
    {merkle_proof : List (Vector UInt8 20)}
    (hproof : merkle_proof.length = wire.footer.merkle_proof.length) :
    (wire.shredWith merkle_root merkle_proof).extent + wire.padding = wire.packet.length := by
  cases wire with
  | data wire =>
    have hfits := wire.fits
    change _ = wire.footer.merkle_proof.length at hproof
    have hresigned : (Shred.merkleData wire.common_header wire.data_header merkle_root merkle_proof
        wire.payload).isResigned = wire.footer.resigned := by
      rw [Shred.isResigned, Shred.commonHeader, wire.variant,
        ShredVariant.fromU8_toU8 (by
          rw [ShredVariant.proofSize, ShredSeal.toNat_proofSize]
          exact wire.footer.proof_size_le)]
      rfl
    show (Shred.merkleData wire.common_header wire.data_header merkle_root merkle_proof
      wire.payload).extent + wire.padding = wire.packet.length
    rw [Shred.extent, hresigned, wire.length_packet, wire.size, hproof, WireData.padding]
    simp only [ShredSeal.bytes, List.length_append, ShredSeal.length_merkle,
      ShredSeal.length_trailer] at hfits ⊢
    rw [max_eq_right (by omega)]
    omega
  | code wire => exact wire.length_packet.symm

theorem not_isPing_packet (wire : WireShred) : ¬ IsPing wire.packet := by
  rintro ⟨hlen, -⟩
  have hge := wire.length_packet_ge
  rw [hlen] at hge
  exact absurd hge (by decide)

/-- A shred without a nonce loses its last four bytes. -/
theorem shredOf_packet (wire : WireShred) :
    shredOf wire.packet = if wire.padding < 4 then none else Shred.parseFromBytes wire.packet := by
  obtain ⟨merkle_root, merkle_proof, hparse⟩ := wire.parseFromBytes_wire
  obtain ⟨hproof, -⟩ := (parseFromBytes_eq_some_iff wire).mp hparse
  have hextent := wire.extent_shredWith merkle_root hproof
  ext shred
  rw [shredOf_eq_some_iff, hparse]
  split_ifs with hpad
  · simp only [Option.some.injEq, iff_false, not_and]
    rintro - rfl
    omega
  · rw [Option.some.injEq]
    constructor
    · rintro ⟨-, rfl, -⟩
      rfl
    · rintro rfl
      exact ⟨wire.not_isPing_packet, rfl, by omega⟩

/-- A shred in front of a nonce is read as it is. -/
theorem shredOf_packet_nonce (wire : WireShred) (nonce : UInt32) :
    shredOf (wire.packet ++ le32 nonce) = Shred.parseFromBytes wire.packet := by
  have hge := wire.length_packet_ge
  refine shredOf_append_nonce nonce ?_ ?_
  · rintro hlen
    rw [hlen] at hge
    exact absurd hge (by decide)
  · rintro hnil
    rw [hnil] at hge
    exact absurd hge (by decide)

/-- **A packet that answers a request is parsed as the packet without the nonce;
one without a nonce is dropped**, unless the four bytes that are cut off are
padding. -/
theorem shredOf_wire (wire : WireShred) (nonce : UInt32) :
    shredOf (wire.packet ++ le32 nonce) = Shred.parseFromBytes wire.packet ∧
      (shredOf wire.packet = none ↔ wire.padding < 4) := by
  refine ⟨wire.shredOf_packet_nonce nonce, ?_⟩
  obtain ⟨merkle_root, merkle_proof, hparse⟩ := wire.parseFromBytes_wire
  rw [wire.shredOf_packet, hparse]
  split_ifs with hpad <;> simp [hpad]

end WireShred

end Sg32
