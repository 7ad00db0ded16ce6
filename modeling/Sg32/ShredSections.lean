/-
The parts of a packet that a shred is read from (`parse_from_bytes`).

The payload follows the headers, and an optional signature, the root and the
proof follow the payload.  For a data shred the end of the payload is a field of
the packet, and only a payload that ends behind it is sought behind the headers.

* `Shred.areas` — where the parts of a shred are read;
* `parseFromBytes_isSome_iff` — which data packets are accepted;
* `parsesApart_iff` — the parts lie apart unless the size field points into the
  headers.
-/
import Mathlib.Order.CompletePartialOrder
import Mathlib.Order.Interval.Set.Disjoint
import Sg32.Shred

namespace Sg32

open Bytes

/-- A range of a packet: its first byte and the one behind its last. -/
abbrev Area := ℕ × ℕ

/-- Where the parts of a shred are read. -/
structure Areas where
  header : Area
  payload : Area
  signature : Option Area
  root : Area
  proof : List Area

namespace Areas

/-- One part behind the other, for these ends of the headers and the payload. -/
def ofEnds (header_end data_end proof_size : ℕ) (resigned : Bool) : Areas :=
  let after_data := data_end + sizeOfResigned resigned
  let proof_off := after_data + 32
  { header := (0, header_end)
    payload := (header_end, max header_end data_end)
    signature := if resigned then some (data_end, after_data) else none
    root := (after_data, proof_off)
    proof := (List.range proof_size).map fun i => (proof_off + i * 20, proof_off + i * 20 + 20) }

/-- The parts behind the headers, in the order in which they are read. -/
def behind (areas : Areas) : List Area :=
  areas.payload :: (areas.signature.toList ++ areas.root :: areas.proof)

theorem sorted_proof (off n : ℕ) :
    ((List.range n).map fun i => (off + i * 20, off + i * 20 + 20)).Pairwise
      fun a b : Area => a.2 ≤ b.1 := by
  rw [List.pairwise_map]
  refine List.pairwise_lt_range.imp fun hlt => ?_
  dsimp only
  omega

theorem le_of_mem_proof {off n : ℕ} {area : Area}
    (h : area ∈ (List.range n).map fun i => (off + i * 20, off + i * 20 + 20)) : off ≤ area.1 := by
  obtain ⟨i, -, rfl⟩ := List.mem_map.mp h
  exact Nat.le_add_right _ _

/-- When the payload ends behind the headers, each part ends before the next. -/
theorem sorted_ofEnds {header_end data_end : ℕ} (h : header_end ≤ data_end) (proof_size : ℕ)
    (resigned : Bool) :
    ((ofEnds header_end data_end proof_size resigned).header ::
      (ofEnds header_end data_end proof_size resigned).behind).Pairwise fun a b => a.2 ≤ b.1 := by
  have hmax : max header_end data_end = data_end := max_eq_right h
  -- the proof comes last, and what comes before ends where it starts at the latest
  have hproof : ∀ n, n ≤ data_end + sizeOfResigned resigned + 32 →
      ∀ area ∈ (ofEnds header_end data_end proof_size resigned).proof, n ≤ area.1 :=
    fun n hn area hmem => hn.trans (le_of_mem_proof hmem)
  have hroot : (ofEnds header_end data_end proof_size resigned).proof.Pairwise
      fun a b => a.2 ≤ b.1 := sorted_proof _ _
  cases resigned with
  | false =>
    simp only [behind, List.pairwise_cons, List.forall_mem_cons, Option.toList, List.nil_append,
      ofEnds, Bool.false_eq_true, if_false, hmax] at hproof hroot ⊢
    exact ⟨⟨le_rfl, by omega, hproof _ (by omega)⟩, ⟨by omega, hproof _ (by omega)⟩,
      hproof _ le_rfl, hroot⟩
  | true =>
    simp only [behind, List.pairwise_cons, List.forall_mem_cons, Option.toList, List.cons_append,
      List.nil_append, ofEnds, if_true, hmax] at hproof hroot ⊢
    exact ⟨⟨le_rfl, by omega, by omega, hproof _ (by omega)⟩,
      ⟨le_rfl, by omega, hproof _ (by omega)⟩, ⟨le_rfl, hproof _ (by omega)⟩,
      hproof _ le_rfl, hroot⟩

/-- Every part ends where the proof does at the latest. -/
theorem le_of_mem_ofEnds {header_end data_end proof_size : ℕ} {resigned : Bool}
    (h : header_end ≤ data_end) {area : Area}
    (hmem : area ∈ (ofEnds header_end data_end proof_size resigned).header ::
      (ofEnds header_end data_end proof_size resigned).behind) :
    area.2 ≤ data_end + sizeOfResigned resigned + 32 + 20 * proof_size := by
  have hmax : max header_end data_end = data_end := max_eq_right h
  simp only [behind, ofEnds, List.mem_cons, List.mem_append, List.mem_map, List.mem_range,
    Option.mem_toList, hmax] at hmem
  rcases hmem with rfl | rfl | hsignature | rfl | ⟨i, hi, rfl⟩
  · exact h.trans (by omega)
  · dsimp only
    omega
  · split_ifs at hsignature
    cases hsignature
    dsimp only
    omega
  · dsimp only
    omega
  · dsimp only
    omega

end Areas

namespace Shred

/-- The areas of a shred that was read from a packet of this variant. -/
def areas (variant : ShredVariant) : Shred → Areas
  | .merkleData _ data_header _ _ _ =>
    .ofEnds 88 data_header.size.toNat variant.proofSize.toNat variant.resigned
  | .merkleCode _ _ _ _ _ =>
    .ofEnds 89 (89 + codeLen variant.proofSize.toNat variant.resigned) variant.proofSize.toNat
      variant.resigned

end Shred

/-! ### Headers -/

section Headers

variable {bytes : Bytes}

theorem le_of_getLe {a b n : ℕ} (h : getLe bytes a b = some n) : b ≤ bytes.length := by
  obtain ⟨range, hrange, -⟩ := Option.map_eq_some_iff.mp h
  exact (getRange_eq_some.mp hrange).1.2

theorem getLe_of_le (bytes : Bytes) {a b : ℕ} (hab : a ≤ b) (hb : b ≤ bytes.length) :
    ∃ n, getLe bytes a b = some n :=
  ⟨_, by rw [getLe, getRange_of_le hab hb, Option.map_some]⟩

theorem getLe_lt {a b n : ℕ} (h : getLe bytes a b = some n) : n < 256 ^ (b - a) := by
  obtain ⟨range, hrange, rfl⟩ := Option.map_eq_some_iff.mp h
  rw [← length_of_getRange hrange]
  exact leNat_lt range

theorem ShredCommonHeader.exists_fromBytes (bytes : Bytes) (h : 83 ≤ bytes.length) :
    ∃ common_header, fromBytes bytes = some common_header := by
  have hsignature : ∃ signature, readArr 64 bytes 0 = some signature := by
    rw [← Option.ne_none_iff_exists', Ne, readArr, getArr_eq_none]
    omega
  obtain ⟨signature, hsignature⟩ := hsignature
  obtain ⟨slot, hslot⟩ := getLe_of_le bytes (a := 65) (b := 73) (by omega) (by omega)
  obtain ⟨index, hindex⟩ := getLe_of_le bytes (a := 73) (b := 77) (by omega) (by omega)
  obtain ⟨version, hversion⟩ := getLe_of_le bytes (a := 77) (b := 79) (by omega) (by omega)
  obtain ⟨fec_set_index, hfec⟩ := getLe_of_le bytes (a := 79) (b := 83) (by omega) (by omega)
  have hvariant : bytes[64]? = some bytes[64] := List.getElem?_eq_getElem (by omega)
  simp only [fromBytes, hsignature, hvariant, hslot, hindex, hversion, hfec,
    Option.bind_eq_bind, Option.bind_some]
  exact ⟨_, rfl⟩

/-- The data header is five bytes, and its last field the size. -/
theorem DataShredHeader.exists_deserialize {header : Bytes}
    (h : getRange bytes 83 88 = some header) :
    ∃ data_header, deserialize header = some data_header := by
  have hlen : header.length = 5 := length_of_getRange h
  obtain ⟨parent_offset, hparent⟩ := getLe_of_le header (a := 0) (b := 2) (by omega) (by omega)
  obtain ⟨size, hsize⟩ := getLe_of_le header (a := 3) (b := 5) (by omega) (by omega)
  have hflags : header[2]? = some header[2] := List.getElem?_eq_getElem (by omega)
  simp only [deserialize, hparent, hflags, hsize, Option.bind_eq_bind, Option.bind_some]
  exact ⟨_, rfl⟩

theorem DataShredHeader.size_of_deserialize {header : Bytes} {data_header : DataShredHeader}
    (h : getRange bytes 83 88 = some header) (hheader : deserialize header = some data_header) :
    getLe bytes 86 88 = some data_header.size.toNat := by
  simp only [deserialize, Option.bind_eq_bind, Option.bind_eq_some_iff, Option.some.injEq]
    at hheader
  obtain ⟨parent_offset, -, flags, -, size, hsize, rfl⟩ := hheader
  have hlt := getLe_lt hsize
  rw [getLe, getRange_of_getRange h 3 (by omega)] at hsize
  rw [UInt16.toNat_ofNat_of_lt' hlt]
  exact hsize

end Headers

/-! ### What is accepted -/

section Accepted

variable {bytes : Bytes} {common_header : ShredCommonHeader} {proof_size : ℕ} {resigned : Bool}
  {shred : Shred}

/-- The payload of a data shred is a range that may be empty. -/
theorem payload_eq (size : ℕ) (h : 88 ≤ bytes.length) :
    (if size > 88 then getRange bytes 88 size else some []) = getRange bytes 88 (max 88 size) := by
  split_ifs with hsize
  · rw [max_eq_right hsize.le]
  · rw [max_eq_left (Nat.not_lt.mp hsize), getRange_of_le le_rfl h, Nat.sub_self]
    rfl

/-- The parts of a data shred, read one after the other. -/
theorem parseData_eq_some_iff :
    Shred.parseData bytes common_header proof_size resigned = some shred ↔
      ∃ header data_header merkle_root merkle_proof data,
        shred = .merkleData common_header data_header merkle_root merkle_proof data ∧
        getRange bytes 83 88 = some header ∧
        DataShredHeader.deserialize header = some data_header ∧
        getRange bytes 88 (max 88 data_header.size.toNat) = some data ∧
        readArr 32 bytes (data_header.size.toNat + sizeOfResigned resigned) = some merkle_root ∧
        readProof bytes proof_size (data_header.size.toNat + sizeOfResigned resigned + 32) =
          some merkle_proof := by
  simp only [Shred.parseData, SIZE_OF_COMMON_HEADER, SIZE_OF_DATA_HEADER, Nat.reduceAdd,
    Option.bind_eq_bind, Option.bind_eq_some_iff, Option.some.injEq]
  constructor
  · rintro ⟨header, hheader, data_header, hdata_header, data, hdata, merkle_root, hroot,
      merkle_proof, hproof, rfl⟩
    have hpayload := payload_eq data_header.size.toNat (getRange_eq_some.mp hheader).1.2
    exact ⟨header, data_header, merkle_root, merkle_proof, data, rfl, hheader, hdata_header,
      hpayload.symm.trans hdata, hroot, hproof⟩
  · rintro ⟨header, data_header, merkle_root, merkle_proof, data, rfl, hheader, hdata_header, hdata,
      hroot, hproof⟩
    have hpayload := payload_eq data_header.size.toNat (getRange_eq_some.mp hheader).1.2
    exact ⟨header, hheader, data_header, hdata_header, data, hpayload.trans hdata, merkle_root,
      hroot, merkle_proof, hproof, rfl⟩

theorem parseCode_eq_some
    (h : Shred.parseCode bytes common_header proof_size resigned = some shred) :
    ∃ coding_header merkle_root merkle_proof code,
      shred = .merkleCode common_header coding_header merkle_root merkle_proof code ∧
      getRange bytes 89 (89 + Shred.codeLen proof_size resigned) = some code ∧
      readArr 32 bytes (89 + Shred.codeLen proof_size resigned + sizeOfResigned resigned) =
        some merkle_root ∧
      readProof bytes proof_size
          (89 + Shred.codeLen proof_size resigned + sizeOfResigned resigned + 32) =
        some merkle_proof := by
  simp only [Shred.parseCode, SIZE_OF_COMMON_HEADER, SIZE_OF_CODING_HEADER, Nat.reduceAdd,
    Option.bind_eq_bind, Option.bind_eq_some_iff, Option.some.injEq] at h
  obtain ⟨-, -, coding_header, -, code, hcode, merkle_root, hroot, merkle_proof, hproof, rfl⟩ := h
  exact ⟨coding_header, merkle_root, merkle_proof, code, rfl, hcode, hroot, hproof⟩

/-- A root and a proof are read when the packet is long enough for them. -/
theorem exists_seal_iff {off n : ℕ} :
    (∃ merkle_root merkle_proof, readArr 32 bytes off = some merkle_root ∧
      readProof bytes n (off + 32) = some merkle_proof) ↔ off + 32 + 20 * n ≤ bytes.length := by
  simp only [readSeal_iff]
  constructor
  · rintro ⟨merkle_root, merkle_proof, -, hrange⟩
    exact (getRange_eq_some.mp hrange).1.2
  · intro hle
    obtain ⟨area, hrange⟩ : ∃ area, getRange bytes off (off + 32 + 20 * n) = some area :=
      ⟨_, getRange_of_le (by omega) hle⟩
    have hlen := length_of_getRange hrange
    rw [Nat.add_assoc, Nat.add_sub_cancel_left] at hlen
    obtain ⟨merkle_root, merkle_proof, hproof, hseal⟩ := exists_sealBytes hlen
    exact ⟨merkle_root, merkle_proof, hproof, hrange.trans (congrArg some hseal.symm)⟩

/-- A data packet is accepted when it is long enough for the parts behind its
size, wherever that is. -/
theorem parseFromBytes_isSome_iff {proof_size : UInt8} {size : ℕ}
    (hvariant : getShredVariant bytes = some (.merkleData proof_size resigned))
    (hsize : getLe bytes 86 88 = some size) :
    (Shred.parseFromBytes bytes).isSome ↔
      size + sizeOfResigned resigned + 32 + 20 * proof_size.toNat ≤ bytes.length := by
  have hlen := le_of_getLe hsize
  obtain ⟨common_header, hcommon⟩ := ShredCommonHeader.exists_fromBytes bytes (by omega)
  have hheader := getRange_of_le (show 83 ≤ 88 by omega) hlen
  obtain ⟨data_header, hdata_header⟩ := DataShredHeader.exists_deserialize hheader
  obtain rfl : data_header.size.toNat = size :=
    Option.some.inj ((DataShredHeader.size_of_deserialize hheader hdata_header).symm.trans hsize)
  have hparse : Shred.parseFromBytes bytes =
      Shred.parseData bytes common_header proof_size.toNat resigned := by
    simp only [Shred.parseFromBytes, hvariant, hcommon, Option.bind_eq_bind, Option.bind_some]
  rw [hparse, Option.isSome_iff_exists, ← exists_seal_iff]
  constructor
  · rintro ⟨shred, hshred⟩
    obtain ⟨header, data_header', merkle_root, merkle_proof, data, -, hheader', hdata_header', -,
      hroot, hproof⟩ := parseData_eq_some_iff.mp hshred
    rw [hheader] at hheader'
    cases hheader'
    rw [hdata_header] at hdata_header'
    cases hdata_header'
    exact ⟨merkle_root, merkle_proof, hroot, hproof⟩
  · rintro ⟨merkle_root, merkle_proof, hroot, hproof⟩
    have hle := exists_seal_iff.mp ⟨merkle_root, merkle_proof, hroot, hproof⟩
    have hdata := getRange_of_le (show 88 ≤ max 88 data_header.size.toNat from le_max_left _ _)
      (show max 88 data_header.size.toNat ≤ bytes.length by omega)
    exact ⟨_, parseData_eq_some_iff.mpr ⟨_, data_header, merkle_root, merkle_proof, _, rfl, hheader,
      hdata_header, hdata, hroot, hproof⟩⟩

/-- The entries of the proof are the ranges that they are read from. -/
theorem map_proof_areas {n off : ℕ} {merkle_proof : List (Vector UInt8 20)}
    (h : readProof bytes n off = some merkle_proof) :
    ((List.range n).map fun i => (off + i * 20, off + i * 20 + 20)).map
        (fun area : Area => getRange bytes area.1 area.2) =
      merkle_proof.map fun entry => some entry.toList := by
  induction n generalizing off merkle_proof with
  | zero =>
    cases h
    rfl
  | succ n ih =>
    simp only [readProof, Option.bind_eq_bind, Option.bind_eq_some_iff, Option.some.injEq] at h
    obtain ⟨entry, hentry, rest, hrest, rfl⟩ := h
    have hentries := ih hrest
    have hshift : ∀ i, off + (i + 1) * 20 = off + 20 + i * 20 := fun i => by ring
    rw [List.map_map] at hentries ⊢
    rw [List.range_succ_eq_map, List.map_cons, List.map_map, List.map_cons, ← hentries]
    simp only [Function.comp_def, Nat.succ_eq_add_one, hshift, Nat.zero_mul, Nat.add_zero]
    rw [getArr_eq_some.mp hentry]

end Accepted

/-! ### Disjoint parts -/

/-- The parts of the shred are read from disjoint areas of the packet, and the
headers come first. -/
structure ReadApart (bytes : Bytes) (areas : Areas) (shred : Shred) : Prop where
  payload : getRange bytes areas.payload.1 areas.payload.2 = some shred.payload
  root : getRange bytes areas.root.1 areas.root.2 = some shred.merkleRoot.toList
  proof : areas.proof.map (fun area => getRange bytes area.1 area.2) =
    shred.merkleProof.map fun entry => some entry.toList
  inside : ∀ area ∈ areas.header :: areas.behind, area.2 ≤ bytes.length
  disjoint : (areas.header :: areas.behind).Pairwise fun a b =>
    Disjoint (Set.Ico a.1 a.2) (Set.Ico b.1 b.2)
  header_first : ∀ area ∈ areas.behind, areas.header.2 ≤ area.1

theorem readApart_ofEnds {bytes : Bytes} {header_end data_end proof_size : ℕ} {resigned : Bool}
    {shred : Shred} (h : header_end ≤ data_end)
    (hpayload : getRange bytes header_end (max header_end data_end) = some shred.payload)
    (hroot : readArr 32 bytes (data_end + sizeOfResigned resigned) = some shred.merkleRoot)
    (hproof : readProof bytes proof_size (data_end + sizeOfResigned resigned + 32) =
      some shred.merkleProof) :
    ReadApart bytes (.ofEnds header_end data_end proof_size resigned) shred where
  payload := hpayload
  root := getArr_eq_some.mp hroot
  proof := map_proof_areas hproof
  inside area hmem := (Areas.le_of_mem_ofEnds h hmem).trans
    (exists_seal_iff.mp ⟨_, _, hroot, hproof⟩)
  disjoint := (Areas.sorted_ofEnds h proof_size resigned).imp fun hle => by
    rw [Set.Ico_disjoint_Ico]
    exact (min_le_left _ _).trans (hle.trans (le_max_right _ _))
  header_first := (List.pairwise_cons.mp (Areas.sorted_ofEnds h proof_size resigned)).1

/-- What parsing should do with a packet: read disjoint parts, and reject it
when the size of a data shred is less than its headers or too large. -/
structure ParsesApart (bytes : Bytes) : Prop where
  accepted : ∀ variant shred, getShredVariant bytes = some variant →
    Shred.parseFromBytes bytes = some shred → ReadApart bytes (shred.areas variant) shred
  rejected : ∀ proof_size resigned size,
    getShredVariant bytes = some (.merkleData proof_size resigned) →
    getLe bytes 86 88 = some size →
    (size < 88 ∨
      bytes.length < size + sizeOfResigned resigned + 32 + 20 * proof_size.toNat) →
    Shred.parseFromBytes bytes = none

/-- The size of a data shred points behind its headers, unless the packet is too
short for what it says. -/
def SizeBehindHeaders (bytes : Bytes) : Prop :=
  ∀ proof_size resigned size, getShredVariant bytes = some (.merkleData proof_size resigned) →
    getLe bytes 86 88 = some size →
    size + sizeOfResigned resigned + 32 + 20 * proof_size.toNat ≤ bytes.length → 88 ≤ size

/-- The parts of an accepted packet, when the size points behind the headers. -/
theorem readApart_of_parse {bytes : Bytes} (h : SizeBehindHeaders bytes) {variant : ShredVariant}
    {shred : Shred} (hvariant : getShredVariant bytes = some variant)
    (hparse : Shred.parseFromBytes bytes = some shred) :
    ReadApart bytes (shred.areas variant) shred := by
  have hparse' := hparse
  simp only [Shred.parseFromBytes, hvariant, Option.bind_eq_bind, Option.bind_some,
    Option.bind_eq_some_iff] at hparse'
  obtain ⟨common_header, -, hparse'⟩ := hparse'
  cases variant with
  | merkleData proof_size resigned =>
    obtain ⟨header, data_header, merkle_root, merkle_proof, data, rfl, hheader, hdata_header, hdata,
      hroot, hproof⟩ := parseData_eq_some_iff.mp hparse'
    have hsize := DataShredHeader.size_of_deserialize hheader hdata_header
    have hlong := (parseFromBytes_isSome_iff hvariant hsize).mp (Option.isSome_of_eq_some hparse)
    exact readApart_ofEnds (h _ _ _ hvariant hsize hlong) hdata hroot hproof
  | merkleCode proof_size resigned =>
    obtain ⟨coding_header, merkle_root, merkle_proof, code, rfl, hcode, hroot, hproof⟩ :=
      parseCode_eq_some hparse'
    have hle := Nat.le_add_right 89 (Shred.codeLen proof_size.toNat resigned)
    have hcode' : getRange bytes 89 (max 89 (89 + Shred.codeLen proof_size.toNat resigned)) =
        some code := by
      rw [max_eq_right hle]
      exact hcode
    exact readApart_ofEnds hle hcode' hroot hproof

/-- **When the parts of a packet are disjoint**: the size of a data shred points
behind its headers, or the packet ends before the parts behind that size. -/
theorem parsesApart_iff (bytes : Bytes) : ParsesApart bytes ↔ SizeBehindHeaders bytes := by
  constructor
  · intro h proof_size resigned size hvariant hsize hlong
    by_contra hsmall
    have hnone := h.rejected proof_size resigned size hvariant hsize (.inl (Nat.not_le.mp hsmall))
    have hsome := (parseFromBytes_isSome_iff hvariant hsize).mpr hlong
    rw [hnone] at hsome
    cases hsome
  · intro h
    refine ⟨fun variant shred hvariant hparse => readApart_of_parse h hvariant hparse, ?_⟩
    intro proof_size resigned size hvariant hsize hbad
    rw [← Option.not_isSome_iff_eq_none, parseFromBytes_isSome_iff hvariant hsize]
    intro hlong
    have hle := h proof_size resigned size hvariant hsize hlong
    omega

/-- A data packet whose size is 0: its root is read from the signature. -/
theorem parsesApart_sizeZero : ¬ ∀ bytes, ParsesApart bytes := by
  intro h
  have hnone := (h (List.replicate 64 0 ++ [0x90] ++ List.replicate 23 0)).rejected 0 false 0
    (by decide +kernel) (by decide +kernel) (.inl (by decide))
  exact absurd hnone (by decide +kernel)

end Sg32
