/-
Decoding gossip datagrams (`protocol.rs` of the gossip crate).

A datagram that does not decode as a whole is read value by value when it is a
pull response or a push message: a value that does not decode is skipped, by
its signature and data when these decode and by 64 bytes otherwise.

* `decodeLen_returns_iff` — when the count of values is read;
* `decodeValues_returns_iff` — when the loop over the values returns;
* `decodeFrom_returns_iff` — when a datagram is decoded or rejected.
-/
import Sg32.Gossip.ShortVec
import Mathlib.Logic.Function.Iterate

namespace Sg32

open Rust Bytes ShortVec

/-! ### Messages -/

abbrev Pubkey := Vector UInt8 32

abbrev Signature := Vector UInt8 64

structure PruneData where
  pubkey : Pubkey
  prunes : List Pubkey
  signature : Signature
  destination : Pubkey
  wallclock : UInt64

/-- The types that the messages carry. -/
structure GossipTypes where
  CrdsFilter : Type
  CrdsValue : Type
  CrdsData : Type
  Ping : Type
  Pong : Type

inductive Protocol (T : GossipTypes)
  | pullRequest (filter : T.CrdsFilter) (value : T.CrdsValue)
  | pullResponse (sender : Pubkey) (values : List T.CrdsValue)
  | pushMessage (sender : Pubkey) (values : List T.CrdsValue)
  | pruneMessage (sender : Pubkey) (data : PruneData)
  | pingMessage (ping : T.Ping)
  | pongMessage (pong : T.Pong)
  | unknown

/-- `bincode` for the messages and for the parts of a value; it accepts bytes
after what it decodes. -/
structure GossipLibs (T : GossipTypes) where
  deserialize : Bytes → Option (Protocol T)
  deserializeValue : Bytes → Option T.CrdsValue
  sizeOfValue : T.CrdsValue → Option ℕ
  deserializeData : Bytes → Option T.CrdsData
  sizeOfData : T.CrdsData → Option ℕ

variable {T : GossipTypes} (libs : GossipLibs T)

/-- `bincode::serialized_size` of a value that was decoded is the length that
decoding it consumed, which is at most what was there. -/
structure GossipLibs.SizesFit : Prop where
  value : ∀ bytes val, libs.deserializeValue bytes = some val →
    (libs.sizeOfValue val).getD 0 ≤ bytes.length
  data : ∀ bytes crds_data, libs.deserializeData bytes = some crds_data →
    (libs.sizeOfData crds_data).getD 0 ≤ bytes.length

/-! ### Decoding -/

/-- Where the cursor stands after a value at `start` that did not decode. -/
def skipValue (bytes remaining : Bytes) (start : ℕ) : Checked ℕ :=
  match getArr 64 remaining 0 with
  | none => pure (start + 64)
  | some sig => do
    let sig_size := sig.toList.length
    let after_sig ← sliceFrom bytes (start + sig_size)
    match libs.deserializeData after_sig with
    | some crds_data =>
      let data_size := (libs.sizeOfData crds_data).getD 0
      pure (start + sig_size + data_size)
    | none => pure (start + 64)

/-- The values from the cursor on; the loop ends early only when a value is
skipped by no bytes. -/
def decodeValues (bytes : Bytes) : ℕ → ℕ → Checked (List T.CrdsValue)
  | 0, _ => pure []
  | count + 1, start => do
    let remaining ← sliceFrom bytes start
    match libs.deserializeValue remaining with
    | some val => do
      let consumed := (libs.sizeOfValue val).getD 0
      let values ← decodeValues bytes count (start + consumed)
      pure (val :: values)
    | none => do
      let next ← skipValue libs bytes remaining start
      if next = start then pure [] else decodeValues bytes count next

/-- The discriminant, a `u32`. -/
def readTag (bytes : Bytes) : Option ℕ := (getRange bytes 0 4).map leNat

/-- The values of a pull response or a push message, after tag and sender. -/
def decodeList (build : Build) (bytes : Bytes) : Checked (List T.CrdsValue) := do
  let pos := 36
  let counted ← sliceFrom bytes pos
  let (count, count_bytes) ← decodeLen build counted
  decodeValues libs bytes count.toNat (pos + count_bytes)

/-- The message of a datagram; `none` is an error. -/
def decodeFrom (build : Build) (bytes : Bytes) : Checked (Option (Protocol T)) :=
  match libs.deserialize bytes with
  | some msg => pure (some msg)
  | none =>
    match readTag bytes with
    | none => pure none
    | some tag =>
      if tag = 1 ∨ tag = 2 then
        match getArr 32 bytes 4 with
        | none => pure none
        | some sender => do
          let values ← decodeList libs build bytes
          pure (some (if tag = 1 then .pullResponse sender values else .pushMessage sender values))
      else if tag ∈ [0, 3, 4, 5] then pure (libs.deserialize bytes)
      else pure (some .unknown)

/-! ### The count -/

section Count

variable {build : Build} {bytes : Bytes}

theorem shlU64_returns_iff (build : Build) (x : UInt64) (shift : ℕ) :
    Returns (shlU64 build x shift) ↔ build = .release ∨ shift < 64 := by
  unfold shlU64 Build.check
  by_cases h : shift < 64
  · simp [h]
  · cases build <;> simp [h]

/-- Without overflow checks the count is always read. -/
theorem decodeLenFrom_release (bytes : Bytes) (i : ℕ) (len : UInt64) :
    Returns (decodeLenFrom .release bytes i len) := by
  induction bytes generalizing i len with
  | nil => exact ⟨_, rfl⟩
  | cons byte bytes ih =>
    obtain ⟨shifted, hshifted⟩ :=
      (shlU64_returns_iff .release (byte &&& 0x7F).toUInt64 (i * 7)).mpr (.inl rfl)
    rw [decodeLenFrom, hshifted, ok_bind]
    split_ifs
    · exact ⟨_, rfl⟩
    · exact ih (i + 1) _

/-- With overflow checks, from byte `i` on, a byte ends the count before
index 10, or there are no more bytes. -/
theorem decodeLenFrom_debug {i : ℕ} {len : UInt64} (hi : i ≤ 10) :
    Returns (decodeLenFrom .debug bytes i len) ↔
      bytes.length + i ≤ 10 ∨ ∃ byte ∈ bytes.take (10 - i), byte &&& 0x80 = 0 := by
  -- induction on the bytes: up to ten are read, of seven bits each
  induction bytes generalizing i len with
  | nil => simp [decodeLenFrom, hi]
  | cons byte bytes ih =>
    rw [decodeLenFrom, returns_bind]
    by_cases hshift : i * 7 < 64
    · obtain ⟨shifted, hshifted⟩ :=
        (shlU64_returns_iff .debug (byte &&& 0x7F).toUInt64 (i * 7)).mpr (.inr hshift)
      obtain ⟨room, hroom⟩ : ∃ room, 10 - i = room + 1 := ⟨9 - i, by omega⟩
      have hroom' : 10 - (i + 1) = room := by omega
      have hlen : (byte :: bytes).length + i = bytes.length + (i + 1) := by
        rw [List.length_cons]
        omega
      rw [hshifted, hroom, hlen, List.take_succ_cons]
      by_cases hlast : byte &&& 0x80 = 0
      · simp [hlast]
      · have hrest : Returns (decodeLenFrom .debug bytes (i + 1) (len ||| shifted)) ↔ _ :=
          ih (by omega)
        rw [hroom'] at hrest
        simp [hlast, hrest]
    · -- the shift of byte 10 overflows
      have hten : i = 10 := by omega
      have hpanic : ¬ ∃ shifted, shlU64 .debug (byte &&& 0x7F).toUInt64 (i * 7) = .ok shifted := by
        rw [← Returns, shlU64_returns_iff]
        simp [hshift]
      constructor
      · rintro ⟨shifted, hshifted, -⟩
        exact absurd ⟨shifted, hshifted⟩ hpanic
      · rw [hten]
        simp

/-- The count ends within ten bytes, or with the datagram, or nothing checks
its shifts. -/
def CountFits (build : Build) (counted : Bytes) : Prop :=
  build = .release ∨ counted.length ≤ 10 ∨ ∃ byte ∈ counted.take 10, byte &&& 0x80 = 0

theorem decodeLen_returns_iff : Returns (decodeLen build bytes) ↔ CountFits build bytes := by
  cases build with
  | release => simp [decodeLen, CountFits, decodeLenFrom_release]
  | debug => simp [decodeLen, CountFits, decodeLenFrom_debug]

theorem decodeLenFrom_length_le {i n : ℕ} {len count : UInt64}
    (h : decodeLenFrom build bytes i len = .ok (count, n)) : n ≤ bytes.length + i := by
  induction bytes generalizing i len with
  | nil =>
    cases h
    omega
  | cons byte bytes ih =>
    obtain ⟨shifted, -, h⟩ := bind_eq_ok.mp h
    split_ifs at h with hlast
    · cases h
      rw [List.length_cons]
      omega
    · have hrest := ih h
      rw [List.length_cons]
      omega

end Count

/-! ### The values -/

section Values

variable {libs} {bytes : Bytes} {start : ℕ}

/-- Where the cursor stands after the value at `start`. -/
def nextStart (libs : GossipLibs T) (bytes : Bytes) (start : ℕ) : ℕ :=
  match libs.deserializeValue (bytes.drop start) with
  | some val => start + (libs.sizeOfValue val).getD 0
  | none =>
    if start + 64 ≤ bytes.length then
      match libs.deserializeData (bytes.drop (start + 64)) with
      | some crds_data => start + 64 + (libs.sizeOfData crds_data).getD 0
      | none => start + 64
    else start + 64

/-- The value at `start` decodes, or there are 64 bytes to skip. -/
def Fits (libs : GossipLibs T) (bytes : Bytes) (start : ℕ) : Prop :=
  (libs.deserializeValue (bytes.drop start)).isSome ∨ start + 64 ≤ bytes.length

/-- A value that does not decode is skipped as `nextStart` says. -/
theorem skipValue_ok (hnone : libs.deserializeValue (bytes.drop start) = none) :
    skipValue libs bytes (bytes.drop start) start = .ok (nextStart libs bytes start) := by
  unfold skipValue nextStart
  rw [hnone]
  by_cases hsig : start + 64 ≤ bytes.length
  · cases harr : getArr 64 (bytes.drop start) 0 with
    | none =>
      have hshort := getArr_eq_none.mp harr
      rw [List.length_drop] at hshort
      omega
    | some sig =>
      simp only [Vector.length_toList, sliceFrom_of_le hsig, ok_bind, if_pos hsig]
      cases libs.deserializeData (bytes.drop (start + 64)) <;> rfl
  · have harr : getArr 64 (bytes.drop start) 0 = none := by
      rw [getArr_eq_none, List.length_drop]
      omega
    rw [harr, if_neg hsig]
    rfl

theorem nextStart_ne (hnone : libs.deserializeValue (bytes.drop start) = none) :
    nextStart libs bytes start ≠ start := by
  unfold nextStart
  rw [hnone]
  split_ifs
  · cases libs.deserializeData (bytes.drop (start + 64)) with
    | none => simp
    | some crds_data =>
      show start + 64 + (libs.sizeOfData crds_data).getD 0 ≠ start
      omega
  · simp

/-- The cursor stays in the datagram after a value that fits. -/
theorem nextStart_le (hsizes : libs.SizesFit) (hstart : start ≤ bytes.length)
    (hfits : Fits libs bytes start) : nextStart libs bytes start ≤ bytes.length := by
  unfold nextStart
  -- behind the value, or behind the signature and what can be read after it
  cases hval : libs.deserializeValue (bytes.drop start) with
  | some val =>
    have hsize := hsizes.value _ val hval
    rw [List.length_drop] at hsize
    show start + (libs.sizeOfValue val).getD 0 ≤ bytes.length
    omega
  | none =>
    have hsig : start + 64 ≤ bytes.length := by
      rcases hfits with hsome | hsig
      · rw [hval] at hsome
        cases hsome
      · exact hsig
    simp only [if_pos hsig]
    cases hdata : libs.deserializeData (bytes.drop (start + 64)) with
    | none => exact hsig
    | some crds_data =>
      have hsize := hsizes.data _ crds_data hdata
      rw [List.length_drop] at hsize
      show start + 64 + (libs.sizeOfData crds_data).getD 0 ≤ bytes.length
      omega

/-- After a value that does not fit the cursor is past the end. -/
theorem lt_nextStart (hfits : ¬ Fits libs bytes start) :
    bytes.length < nextStart libs bytes start := by
  rw [Fits, not_or, Option.not_isSome_iff_eq_none] at hfits
  obtain ⟨hnone, hsig⟩ := hfits
  rw [nextStart, hnone]
  simp only [if_neg hsig]
  omega

/-- The values at a cursor past the end cannot be read. -/
theorem not_returns_past {count : ℕ} (hpast : bytes.length < start) :
    ¬ Returns (decodeValues libs bytes (count + 1) start) := by
  rw [decodeValues, returns_bind]
  rintro ⟨remaining, hremaining, -⟩
  have hle := returns_sliceFrom.mp ⟨remaining, hremaining⟩
  omega

/-- One turn of the loop moves the cursor as `nextStart` says. -/
theorem decodeValues_succ {count : ℕ} (hstart : start ≤ bytes.length) :
    Returns (decodeValues libs bytes (count + 1) start) ↔
      Returns (decodeValues libs bytes count (nextStart libs bytes start)) := by
  rw [decodeValues, sliceFrom_of_le hstart, ok_bind]
  cases hval : libs.deserializeValue (bytes.drop start) with
  | some val =>
    have hnext : nextStart libs bytes start = start + (libs.sizeOfValue val).getD 0 := by
      rw [nextStart, hval]
    rw [hnext]
    show Returns (decodeValues libs bytes count _ >>= fun values => pure (val :: values)) ↔ _
    rw [returns_bind]
    exact ⟨fun ⟨values, hvalues, _⟩ => ⟨values, hvalues⟩,
      fun ⟨values, hvalues⟩ => ⟨values, hvalues, returns_pure _⟩⟩
  | none =>
    simp only [skipValue_ok hval, ok_bind, if_neg (nextStart_ne hval)]

/-- The loop returns exactly if every value but the last fits. -/
theorem decodeValues_returns_iff (hsizes : libs.SizesFit) (count : ℕ)
    (hstart : start ≤ bytes.length) :
    Returns (decodeValues libs bytes count start) ↔
      ∀ k, k + 1 < count → Fits libs bytes ((nextStart libs bytes)^[k] start) := by
  induction count generalizing start with
  | zero =>
    refine ⟨fun _ k hk => ?_, fun _ => ⟨[], rfl⟩⟩
    omega
  | succ count ih =>
    rw [decodeValues_succ hstart]
    by_cases hfits : Fits libs bytes start
    · rw [ih (nextStart_le hsizes hstart hfits)]
      constructor
      · intro h k hk
        cases k with
        | zero => exact hfits
        | succ k => exact h k (by omega)
      · intro h k hk
        exact h (k + 1) (by omega)
    · cases count with
      | zero =>
        refine ⟨fun _ k hk => ?_, fun _ => ⟨[], rfl⟩⟩
        omega
      | succ count =>
        -- a further value would be read past the end
        constructor
        · intro h
          exact absurd h (not_returns_past (lt_nextStart hfits))
        · intro h
          exact absurd (h 0 (by omega)) hfits

end Values

/-! ### Datagrams -/

section Datagrams

variable {libs} {build : Build} {bytes : Bytes}

/-- A pull response or a push message whose values are read one by one. -/
def ReadOneByOne (libs : GossipLibs T) (bytes : Bytes) : Prop :=
  libs.deserialize bytes = none ∧ (readTag bytes = some 1 ∨ readTag bytes = some 2) ∧
    36 ≤ bytes.length

/-- Every announced value but the last decodes or is followed by 64 bytes from
its start on. -/
def ValuesFit (libs : GossipLibs T) (build : Build) (bytes : Bytes) : Prop :=
  ∀ count count_bytes, decodeLen build (bytes.drop 36) = .ok (count, count_bytes) →
    ∀ k, k + 1 < count.toNat →
      Fits libs bytes ((nextStart libs bytes)^[k] (36 + count_bytes))

theorem decodeList_returns_iff (hsizes : libs.SizesFit) (hlen : 36 ≤ bytes.length) :
    Returns (decodeList libs build bytes) ↔
      CountFits build (bytes.drop 36) ∧ ValuesFit libs build bytes := by
  rw [decodeList, sliceFrom_of_le hlen, ok_bind, returns_bind, ← decodeLen_returns_iff]
  have hcursor : ∀ {count : UInt64} {count_bytes : ℕ},
      decodeLen build (bytes.drop 36) = .ok (count, count_bytes) →
        36 + count_bytes ≤ bytes.length := by
    intro count count_bytes hcount
    have hle := decodeLenFrom_length_le hcount
    rw [List.length_drop] at hle
    omega
  constructor
  · rintro ⟨⟨count, count_bytes⟩, hcount, hvalues⟩
    refine ⟨⟨_, hcount⟩, ?_⟩
    intro count' count_bytes' hcount'
    cases hcount.symm.trans hcount'
    exact (decodeValues_returns_iff hsizes _ (hcursor hcount)).mp hvalues
  · rintro ⟨⟨⟨count, count_bytes⟩, hcount⟩, hvalues⟩
    refine ⟨_, hcount, ?_⟩
    exact (decodeValues_returns_iff hsizes _ (hcursor hcount)).mpr (hvalues _ _ hcount)

/-- **When a datagram is decoded or rejected**: unless its values are read one
by one, always; otherwise exactly if the count fits and the values do. -/
theorem decodeFrom_returns_iff (hsizes : libs.SizesFit) (build : Build) (bytes : Bytes) :
    Returns (decodeFrom libs build bytes) ↔
      (ReadOneByOne libs bytes →
        CountFits build (bytes.drop 36) ∧ ValuesFit libs build bytes) := by
  unfold decodeFrom
  cases hmsg : libs.deserialize bytes with
  | some msg => simp [ReadOneByOne, hmsg]
  | none =>
    cases htag : readTag bytes with
    | none => simp [ReadOneByOne, htag]
    | some tag =>
      -- only the two lists are read one by one
      by_cases hlist : tag = 1 ∨ tag = 2
      · simp only [if_pos hlist]
        cases hsender : getArr 32 bytes 4 with
        | none =>
          have hshort := getArr_eq_none.mp hsender
          have hnot : ¬ ReadOneByOne libs bytes := by
            rintro ⟨-, -, hlen⟩
            omega
          simp [hnot]
        | some sender =>
          have hlen : 36 ≤ bytes.length :=
            (getRange_eq_some.mp (getArr_eq_some.mp hsender)).1.2
          have hread : ReadOneByOne libs bytes := by
            refine ⟨hmsg, ?_, hlen⟩
            rw [htag]
            simpa using hlist
          show Returns (decodeList libs build bytes >>= fun values => pure _) ↔ _
          rw [returns_bind, forall_prop_of_true hread, ← decodeList_returns_iff hsizes hlen]
          exact ⟨fun ⟨values, hvalues, _⟩ => ⟨values, hvalues⟩,
            fun ⟨values, hvalues⟩ => ⟨values, hvalues, returns_pure _⟩⟩
      · have hnot : ¬ ReadOneByOne libs bytes := by
          rintro ⟨-, htags, -⟩
          rw [htag] at htags
          exact hlist (by simpa using htags)
        simp only [if_neg hlist, hnot, false_implies, iff_true]
        split_ifs
        · exact ⟨_, rfl⟩
        · exact ⟨_, rfl⟩

end Datagrams

/-- Libraries that decode nothing. -/
def nothingDecodes : GossipLibs ⟨Unit, Unit, Unit, Unit, Unit⟩ where
  deserialize _ := none
  deserializeValue _ := none
  sizeOfValue _ := none
  deserializeData _ := none
  sizeOfData _ := none

theorem nothingDecodes_sizesFit : nothingDecodes.SizesFit where
  value bytes val h := by cases h
  data bytes crds_data h := by cases h

/-- A pull response that announces some values, and has none. -/
def announces (count : UInt8) : Bytes := [1, 0, 0, 0] ++ List.replicate 32 9 ++ [count]

/-- Two values are announced, and there are 64 bytes to skip for the first. -/
theorem decodeFrom_announcesTwo_of_room :
    ReadOneByOne nothingDecodes (announces 2 ++ List.replicate 64 9) ∧
      CountFits .debug ((announces 2 ++ List.replicate 64 9).drop 36) ∧
      ValuesFit nothingDecodes .debug (announces 2 ++ List.replicate 64 9) ∧
      Returns (decodeFrom nothingDecodes .debug (announces 2 ++ List.replicate 64 9)) := by
  have hcount : decodeLen .debug ((announces 2 ++ List.replicate 64 9).drop 36) = .ok (2, 1) := by
    decide +kernel
  have hfits : CountFits .debug ((announces 2 ++ List.replicate 64 9).drop 36) :=
    decodeLen_returns_iff.mp ⟨_, hcount⟩
  have hvalues : ValuesFit nothingDecodes .debug (announces 2 ++ List.replicate 64 9) := by
    intro count count_bytes hcount' k hk
    cases hcount.symm.trans hcount'
    -- only the first value must fit
    obtain rfl : k = 0 := by
      change k + 1 < 2 at hk
      omega
    exact .inr (by decide)
  exact ⟨⟨rfl, .inl rfl, by decide⟩, hfits, hvalues,
    (decodeFrom_returns_iff nothingDecodes_sizesFit .debug _).mpr fun _ => ⟨hfits, hvalues⟩⟩

theorem decodeFrom_announcesTwo :
    ¬ ∀ (T : GossipTypes) (libs : GossipLibs T), libs.SizesFit → ∀ (build : Build) (bytes : Bytes),
      Returns (decodeFrom libs build bytes) := by
  intro hclaim
  have hpanic : ¬ Returns (decodeFrom nothingDecodes .debug (announces 2)) := by decide +kernel
  exact hpanic (hclaim _ nothingDecodes nothingDecodes_sizesFit .debug (announces 2))

end Sg32
