/-
Which values survive when a message is read value by value.

`encode_to` writes the number of values as a `u64`, but the slow path of
`decode_from` reads a compact length there: below 128 it takes one byte, and
the first value is looked for among the seven zero bytes that are left of the
count.

* `decodeValues_eq` — the values decoded are those at the stops of the cursor;
* `keepsValues_iff_stops` — the values before a bad one survive when the cursor
  stops at all of them, in order;
* `decodeFrom_keepsValues` — that is so when the count, read as a compact
  length, takes eight bytes too, and otherwise only by accident;
* `two_pow_le_of_takesEight`, `decodeLen_le64` — no count below `2 ^ 55` does,
  and one below 128 takes one byte.
-/
import Sg32.Gossip.Protocol

namespace Sg32

open Rust Bytes ShortVec

variable {T : GossipTypes} {libs : GossipLibs T} {build : Build}

/-- `bincode` decodes what it encoded, whatever comes after, and knows its
size. -/
structure GossipLibs.RoundTrips (libs : GossipLibs T) (encodeValue : T.CrdsValue → Bytes) :
    Prop where
  value : ∀ val rest, libs.deserializeValue (encodeValue val ++ rest) = some val
  size : ∀ val, libs.sizeOfValue val = some (encodeValue val).length

/-- A pull response or a push message as `encode_to` writes it, except for the
bytes after the leading values. -/
def listMessage (encodeValue : T.CrdsValue → Bytes) (tag : UInt32) (sender : Pubkey)
    (count : UInt64) (values : List T.CrdsValue) (tail : Bytes) : Bytes :=
  le32 tag ++ (sender.toList ++ (le64 count ++ (values.flatMap encodeValue ++ tail)))

/-- The message of a tag with a list of values. -/
def listVariant (tag : UInt32) (sender : Pubkey) (values : List T.CrdsValue) : Protocol T :=
  if tag = 1 then .pullResponse sender values else .pushMessage sender values

/-! ### Stops of the cursor -/

section Stops

variable {bytes : Bytes} {start : ℕ}

/-- What decodes at the `k`-th stop of the cursor. -/
def valueAt (libs : GossipLibs T) (bytes : Bytes) (start k : ℕ) : Option T.CrdsValue :=
  libs.deserializeValue (bytes.drop ((nextStart libs bytes)^[k] start))

theorem valueAt_succ (k : ℕ) :
    valueAt libs bytes start (k + 1) = valueAt libs bytes (nextStart libs bytes start) k := by
  rw [valueAt, Function.iterate_succ_apply]
  rfl

/-- The loop collects what decodes at its stops. -/
theorem decodeValues_eq {count : ℕ} {values : List T.CrdsValue}
    (h : decodeValues libs bytes count start = .ok values) :
    values = (List.range count).filterMap (valueAt libs bytes start) := by
  -- induction on the count: the loop goes on at the next start
  induction count generalizing start values with
  | zero =>
    cases h
    rfl
  | succ count ih =>
    obtain ⟨remaining, hremaining, h⟩ := bind_eq_ok.mp h
    have hle := returns_sliceFrom.mp ⟨remaining, hremaining⟩
    rw [sliceFrom_of_le hle] at hremaining
    cases hremaining
    have hrest : (List.range (count + 1)).filterMap (valueAt libs bytes start) =
        (valueAt libs bytes start 0).toList ++
          (List.range count).filterMap (valueAt libs bytes (nextStart libs bytes start)) := by
      rw [List.range_succ_eq_map, List.filterMap_cons, List.filterMap_map]
      simp only [Function.comp_def, valueAt_succ]
      cases valueAt libs bytes start 0 <;> rfl
    rw [hrest]
    have hzero : valueAt libs bytes start 0 = libs.deserializeValue (bytes.drop start) := rfl
    rw [hzero]
    -- a value is kept, anything else is skipped
    cases hval : libs.deserializeValue (bytes.drop start) with
    | some val =>
      simp only [hval] at h
      obtain ⟨values', hvalues', h⟩ := bind_eq_ok.mp h
      cases h
      have hnext : nextStart libs bytes start = start + (libs.sizeOfValue val).getD 0 := by
        rw [nextStart, hval]
      rw [hnext, ih hvalues']
      rfl
    | none =>
      simp only [hval, skipValue_ok hval, ok_bind, if_neg (nextStart_ne hval)] at h
      rw [ih h]
      rfl

/-- Dropping what does not decode leaves the stops where something does. -/
theorem map_filter_isSome {α β : Type} (f : α → Option β) (l : List α) :
    (l.filter fun a => (f a).isSome).map f = (l.filterMap f).map some := by
  induction l with
  | nil => rfl
  | cons a l ih => cases h : f a <;> simp [h, ih]

/-- The cursor stops at each of the values, in order. -/
def StopsAt (libs : GossipLibs T) (bytes : Bytes) (start count : ℕ) (values : List T.CrdsValue) :
    Prop :=
  ∃ stops : List ℕ, stops.Sublist (List.range count) ∧
    stops.map (valueAt libs bytes start) = values.map some

theorem sublist_filterMap_iff_stopsAt {count : ℕ} {values : List T.CrdsValue} :
    values.Sublist ((List.range count).filterMap (valueAt libs bytes start)) ↔
      StopsAt libs bytes start count values := by
  rw [List.sublist_filterMap_iff]
  constructor
  · rintro ⟨stops, hstops, rfl⟩
    exact ⟨stops.filter fun k => (valueAt libs bytes start k).isSome,
      List.filter_sublist.trans hstops, map_filter_isSome _ _⟩
  · rintro ⟨stops, hstops, hmap⟩
    refine ⟨stops, hstops, ?_⟩
    have hids := congrArg (List.filterMap id) hmap
    rw [List.filterMap_map, List.filterMap_map] at hids
    exact (List.filterMap_some.symm.trans hids.symm)

end Stops

/-! ### Messages -/

section Messages

variable {encodeValue : T.CrdsValue → Bytes} {tag : UInt32} {sender : Pubkey} {count : UInt64}
  {values : List T.CrdsValue} {tail : Bytes}

theorem readTag_listMessage :
    readTag (listMessage encodeValue tag sender count values tail) = some tag.toNat := by
  have hrange : getRange ([] ++ (le32 tag ++
      (sender.toList ++ (le64 count ++ (values.flatMap encodeValue ++ tail))))) 0 4 =
      some (le32 tag) := getRange_append rfl (by simp)
  rw [List.nil_append] at hrange
  rw [readTag, listMessage, hrange, Option.map_some, leNat_le32]

theorem sender_listMessage :
    getArr 32 (listMessage encodeValue tag sender count values tail) 4 = some sender :=
  getArr_append (le32 tag) _ (by simp)

theorem drop_listMessage :
    (listMessage encodeValue tag sender count values tail).drop 36 =
      le64 count ++ (values.flatMap encodeValue ++ tail) := by
  have hhead : (le32 tag ++ sender.toList).length = 36 := by simp
  rw [listMessage, ← List.append_assoc, ← hhead, List.drop_left]

theorem drop_values :
    (listMessage encodeValue tag sender count values tail).drop 44 =
      values.flatMap encodeValue ++ tail := by
  have h : (listMessage encodeValue tag sender count values tail).drop
      (36 + (le64 count).length) = values.flatMap encodeValue ++ tail :=
    drop_add_of_drop drop_listMessage
  rwa [length_le64] at h

/-- The slow path gives a message of the same kind from the same sender. -/
theorem decodeFrom_listMessage (htag : tag = 1 ∨ tag = 2)
    (hfast : libs.deserialize (listMessage encodeValue tag sender count values tail) = none) :
    decodeFrom libs build (listMessage encodeValue tag sender count values tail) =
      (decodeList libs build (listMessage encodeValue tag sender count values tail) >>= fun vs =>
        pure (some (listVariant tag sender vs))) := by
  have hlist : tag.toNat = 1 ∨ tag.toNat = 2 := by
    rcases htag with rfl | rfl
    · exact .inl rfl
    · exact .inr rfl
  rw [decodeFrom, hfast]
  simp only [readTag_listMessage, sender_listMessage, if_pos hlist]
  rcases htag with rfl | rfl <;> rfl

/-- Decoding returns a message of the same kind from the same sender, with the
leading values in order. -/
def KeepsValues (libs : GossipLibs T) (build : Build) (bytes : Bytes) (tag : UInt32)
    (sender : Pubkey) (values : List T.CrdsValue) : Prop :=
  ∃ decoded, decodeFrom libs build bytes = .ok (some (listVariant tag sender decoded)) ∧
    values.Sublist decoded

/-- From after the compact length on, the cursor stops at each of the values,
in order, among as many stops as that length says. -/
def ValuesFound (libs : GossipLibs T) (build : Build) (bytes : Bytes)
    (values : List T.CrdsValue) : Prop :=
  ∀ count count_bytes, decodeLen build (bytes.drop 36) = .ok (count, count_bytes) →
    StopsAt libs bytes (36 + count_bytes) count.toNat values

theorem decodeList_eq {bytes : Bytes} {count' : UInt64} {count_bytes : ℕ}
    (hlen : 36 ≤ bytes.length)
    (hcount : decodeLen build (bytes.drop 36) = .ok (count', count_bytes))
    {decoded : List T.CrdsValue} (h : decodeList libs build bytes = .ok decoded) :
    decoded = (List.range count'.toNat).filterMap (valueAt libs bytes (36 + count_bytes)) := by
  rw [decodeList, sliceFrom_of_le hlen, ok_bind, hcount, ok_bind] at h
  exact decodeValues_eq h

theorem listVariant_inj {vs ws : List T.CrdsValue}
    (h : listVariant tag sender vs = listVariant tag sender ws) : vs = ws := by
  unfold listVariant at h
  split_ifs at h
  · exact (Protocol.pullResponse.inj h).2
  · exact (Protocol.pushMessage.inj h).2

/-- The values before a bad one survive when the datagram is decoded at all,
and the cursor stops at each of them, in order. -/
theorem keepsValues_iff_stops (hsizes : libs.SizesFit) (build : Build)
    (encodeValue : T.CrdsValue → Bytes) {tag : UInt32} (htag : tag = 1 ∨ tag = 2)
    (sender : Pubkey) (count : UInt64) (values : List T.CrdsValue) (tail : Bytes)
    (hfast : libs.deserialize (listMessage encodeValue tag sender count values tail) = none) :
    let bytes := listMessage encodeValue tag sender count values tail
    KeepsValues libs build bytes tag sender values ↔
      CountFits build (bytes.drop 36) ∧ ValuesFit libs build bytes ∧
        ValuesFound libs build bytes values := by
  intro bytes
  have hlen : 36 ≤ bytes.length :=
    (getRange_eq_some.mp (getArr_eq_some.mp sender_listMessage)).1.2
  have hdecode : decodeFrom libs build bytes = (decodeList libs build bytes >>= fun vs =>
      pure (some (listVariant tag sender vs))) := decodeFrom_listMessage htag hfast
  rw [← and_assoc, ← decodeList_returns_iff hsizes hlen]
  -- both directions read the values off `decodeList_eq`
  constructor
  · rintro ⟨decoded, hok, hsub⟩
    rw [hdecode] at hok
    obtain ⟨vs, hvs, hpure⟩ := bind_eq_ok.mp hok
    have hsame : vs = decoded := listVariant_inj (Option.some.inj (Except.ok.inj hpure))
    subst hsame
    refine ⟨⟨vs, hvs⟩, fun count' count_bytes hcount => ?_⟩
    rw [decodeList_eq hlen hcount hvs] at hsub
    exact sublist_filterMap_iff_stopsAt.mp hsub
  · rintro ⟨⟨vs, hvs⟩, hfound⟩
    refine ⟨vs, ?_, ?_⟩
    · rw [hdecode, hvs]
      rfl
    · have hlength := ((decodeList_returns_iff hsizes hlen).mp ⟨vs, hvs⟩).1
      obtain ⟨⟨count', count_bytes⟩, hcount⟩ := decodeLen_returns_iff.mpr hlength
      rw [decodeList_eq hlen hcount hvs]
      exact sublist_filterMap_iff_stopsAt.mpr (hfound count' count_bytes hcount)

/-! ### The cursor -/

/-- A value takes at least the 64 bytes of its signature. -/
def GossipLibs.Signed (libs : GossipLibs T) : Prop :=
  ∀ bytes val, libs.deserializeValue bytes = some val → 64 ≤ (libs.sizeOfValue val).getD 0

/-- The cursor moves by a signature at least. -/
theorem le_nextStart (hsigned : libs.Signed) (bytes : Bytes) (start : ℕ) :
    start + 64 ≤ nextStart libs bytes start := by
  unfold nextStart
  cases hval : libs.deserializeValue (bytes.drop start) with
  | some val =>
    have hsize := hsigned _ val hval
    show start + 64 ≤ start + (libs.sizeOfValue val).getD 0
    omega
  | none =>
    dsimp only
    split_ifs
    · cases libs.deserializeData (bytes.drop (start + 64)) with
      | none => exact le_rfl
      | some crds_data => exact Nat.le_add_right _ _
    · exact le_rfl

theorem le_iterate_nextStart (hsigned : libs.Signed) (bytes : Bytes) (start k : ℕ) :
    start + 64 * k ≤ (nextStart libs bytes)^[k] start := by
  induction k with
  | zero => exact le_rfl
  | succ k ih =>
    rw [Function.iterate_succ_apply']
    have hnext := le_nextStart hsigned bytes ((nextStart libs bytes)^[k] start)
    omega

/-- The cursor does not look at what is before it. -/
theorem nextStart_add {bytes : Bytes} {start : ℕ} (hstart : start ≤ bytes.length) (p : ℕ) :
    nextStart libs bytes (start + p) = start + nextStart libs (bytes.drop start) p := by
  have hlen : start + (p + 64) ≤ bytes.length ↔ p + 64 ≤ (bytes.drop start).length := by
    rw [List.length_drop]
    omega
  unfold nextStart
  simp only [List.drop_drop, hlen, Nat.add_assoc]
  cases libs.deserializeValue (bytes.drop (start + p)) with
  | some val => rfl
  | none =>
    dsimp only
    split_ifs
    · cases libs.deserializeData (bytes.drop (start + (p + 64))) <;> rfl
    · rfl

theorem iterate_nextStart_add {bytes : Bytes} {start : ℕ} (hstart : start ≤ bytes.length)
    (p k : ℕ) : (nextStart libs bytes)^[k] (start + p) =
      start + (nextStart libs (bytes.drop start))^[k] p := by
  induction k generalizing p with
  | zero => rfl
  | succ k ih =>
    rw [Function.iterate_succ_apply, Function.iterate_succ_apply, nextStart_add hstart, ih]

theorem fits_add {bytes : Bytes} {start : ℕ} (hstart : start ≤ bytes.length) (p : ℕ) :
    Fits libs bytes (start + p) ↔ Fits libs (bytes.drop start) p := by
  have hlen : start + p + 64 ≤ bytes.length ↔ p + 64 ≤ (bytes.drop start).length := by
    rw [List.length_drop]
    omega
  rw [Fits, Fits, List.drop_drop, hlen]

/-- Values one after the other are found from the first one on. -/
theorem map_valueAt_range (htrips : libs.RoundTrips encodeValue) {bytes : Bytes} {start : ℕ}
    (h : bytes.drop start = values.flatMap encodeValue ++ tail) :
    (List.range values.length).map (valueAt libs bytes start) = values.map some ∧
      (nextStart libs bytes)^[values.length] start =
        start + (values.flatMap encodeValue).length := by
  induction values generalizing start with
  | nil => exact ⟨rfl, rfl⟩
  | cons val values ih =>
    rw [List.flatMap_cons, List.append_assoc] at h
    have hval : libs.deserializeValue (bytes.drop start) = some val := by
      rw [h]
      exact htrips.value val _
    have hnext : nextStart libs bytes start = start + (encodeValue val).length := by
      rw [nextStart, hval]
      simp only [htrips.size, Option.getD_some]
    -- the first value takes exactly its bytes, so the next one starts behind it
    have hrest : bytes.drop (nextStart libs bytes start) = values.flatMap encodeValue ++ tail := by
      rw [hnext]
      exact drop_add_of_drop h
    obtain ⟨hvalues, hend⟩ := ih hrest
    constructor
    · rw [List.length_cons, List.range_succ_eq_map, List.map_cons, List.map_map, List.map_cons]
      simp only [Function.comp_def, valueAt_succ]
      rw [hvalues]
      exact congrArg (· :: _) hval
    · rw [List.length_cons, Function.iterate_succ_apply, hend, hnext, List.flatMap_cons,
        List.length_append, Nat.add_assoc]

/-! ### The compact length -/

/-- Read as a compact length the count takes its eight bytes: the last one
alone has its high bit clear. -/
def TakesEight (count : UInt64) : Prop :=
  ∃ init last, le64 count = init ++ [last] ∧ (∀ byte ∈ init, byte &&& 0x80 ≠ 0) ∧ last &&& 0x80 = 0

/-- The compact length in the eight bytes of the count. -/
def compactCount (count : UInt64) : ℕ := sevenBits (le64 count)

/-- So many values can be read from the tail: each but the last decodes or has
64 bytes from its start on. -/
def TailFits (libs : GossipLibs T) (tail : Bytes) (n : ℕ) : Prop :=
  ∀ k, k + 1 < n → Fits libs tail ((nextStart libs tail)^[k] 0)

/-- The count means enough values as a compact length of eight bytes, and what
it means beyond them can be read from the tail. -/
structure Aligned (libs : GossipLibs T) (count : UInt64) (values : List T.CrdsValue)
    (tail : Bytes) : Prop where
  eight : TakesEight count
  many : values.length ≤ compactCount count
  tail : TailFits libs tail (compactCount count - values.length)

/-- The value is read from the message at its first place and nowhere else. -/
def ReadOnce (libs : GossipLibs T) (bytes : Bytes) (val : T.CrdsValue) : Prop :=
  ∀ pos, libs.deserializeValue (bytes.drop pos) = some val → pos = 44

theorem decodeLen_of_takesEight (build : Build) (h : TakesEight count) (rest : Bytes) :
    ∃ v, decodeLen build (le64 count ++ rest) = .ok (v, 8) ∧ v.toNat = compactCount count := by
  obtain ⟨init, last, heq, hinit, hlast⟩ := h
  have hlen : init.length = 7 := by
    have := congrArg List.length heq
    rw [length_le64, List.length_append, List.length_singleton] at this
    omega
  have hread := decodeLenFrom_bytes (i := 0) build rest hinit hlast
    (by decide : (0 : UInt64).toNat < 2 ^ (0 * 7)) (by rw [hlen]; decide)
  obtain ⟨v, hv, hvalue⟩ := hread
  refine ⟨v, ?_, ?_⟩
  · rw [decodeLen, heq, List.append_assoc, List.singleton_append, hv, hlen]
  · rw [hvalue, compactCount, heq]
    simp

/-- A compact length of eight bytes is one of the count. -/
theorem takesEight_of_decodeLen {rest : Bytes} {count' : UInt64} (hrest : rest ≠ [])
    (h : decodeLen build (le64 count ++ rest) = .ok (count', 8)) :
    TakesEight count ∧ count'.toNat = compactCount count := by
  rcases decodeLenFrom_takes h with hend | ⟨init, last, after, heq, hn, hinit, hlast⟩
  · have hpos := List.length_pos_iff.mpr hrest
    rw [List.length_append, length_le64] at hend
    omega
  have hlen : (init ++ [last]).length = 8 := by
    rw [List.length_append, List.length_singleton]
    omega
  have heq' : le64 count ++ rest = (init ++ [last]) ++ after := by
    rw [heq, List.append_assoc, List.singleton_append]
  obtain ⟨hcount, -⟩ := List.append_inj heq' (by rw [length_le64, hlen])
  have height : TakesEight count := ⟨init, last, hcount, hinit, hlast⟩
  obtain ⟨v, hv, hvalue⟩ := decodeLen_of_takesEight build height rest
  cases h.symm.trans hv
  exact ⟨height, hvalue⟩

/-- Only counts beyond any message take eight bytes. -/
theorem two_pow_le_of_takesEight (h : TakesEight count) : 2 ^ 55 ≤ count.toNat := by
  obtain ⟨init, last, heq, hinit, -⟩ := h
  have hlen : init.length = 7 := by
    have := congrArg List.length heq
    rw [length_le64, List.length_append, List.length_singleton] at this
    omega
  -- the seventh byte
  have hseven : (le64 count)[6]? =
      some (UInt8.ofNat (count.toNat / 256 / 256 / 256 / 256 / 256 / 256)) := rfl
  rw [heq, List.getElem?_append_left (by omega)] at hseven
  have hhigh := hinit _ (List.mem_of_getElem? hseven)
  rw [← UInt8.ofNat_mod_size, Ne, high_bit (Nat.mod_lt _ (by decide))] at hhigh
  have hsize : UInt8.size = 256 := rfl
  omega

/-- A count below 128 is read from its first byte alone. -/
theorem decodeLen_le64 (build : Build) (hcount : count.toNat < 128) (rest : Bytes) :
    decodeLen build (le64 count ++ rest) = .ok (count, 1) := by
  have hread := decodeLen_encodeLen build count (leBytes 7 (count.toNat / 256) ++ rest)
  rw [encodeLen_one hcount] at hread
  exact hread

theorem length_listMessage :
    (listMessage encodeValue tag sender count values tail).length =
      44 + (values.flatMap encodeValue).length + tail.length := by
  simp only [listMessage, List.length_append, length_le32, length_le64, Vector.length_toList]
  omega

/-- Behind the values the cursor goes on in the tail. -/
theorem fits_tail (htrips : libs.RoundTrips encodeValue) (k : ℕ) :
    Fits libs (listMessage encodeValue tag sender count values tail)
        ((nextStart libs (listMessage encodeValue tag sender count values tail))^[k + values.length]
          44) ↔ Fits libs tail ((nextStart libs tail)^[k] 0) := by
  have hdrop : (listMessage encodeValue tag sender count values tail).drop 44 =
      values.flatMap encodeValue ++ tail := drop_values
  have htail : (listMessage encodeValue tag sender count values tail).drop
      (44 + (values.flatMap encodeValue).length) = tail := drop_add_of_drop hdrop
  have hstart : 44 + (values.flatMap encodeValue).length ≤
      (listMessage encodeValue tag sender count values tail).length := by
    rw [length_listMessage]
    exact Nat.le_add_right _ _
  rw [Function.iterate_add_apply, (map_valueAt_range htrips hdrop).2,
    ← Nat.add_zero (44 + _), iterate_nextStart_add hstart, fits_add hstart, htail]

/-- Each of the leading values fits. -/
theorem fits_values (htrips : libs.RoundTrips encodeValue) {k : ℕ} (hk : k < values.length) :
    Fits libs (listMessage encodeValue tag sender count values tail)
      ((nextStart libs (listMessage encodeValue tag sender count values tail))^[k] 44) := by
  have hdrop : (listMessage encodeValue tag sender count values tail).drop 44 =
      values.flatMap encodeValue ++ tail := drop_values
  have hvalue := congrArg (fun decoded => decoded[k]?) (map_valueAt_range htrips hdrop).1
  simp only [List.getElem?_map, List.getElem?_range hk, List.getElem?_eq_getElem hk,
    Option.map_some, Option.some.injEq] at hvalue
  exact .inl (by rw [← valueAt, hvalue]; rfl)

/-- What is announced fits when it does in the tail. -/
theorem valuesFit_iff_tailFits (build : Build) (htrips : libs.RoundTrips encodeValue)
    (height : TakesEight count) :
    ValuesFit libs build (listMessage encodeValue tag sender count values tail) ↔
      TailFits libs tail (compactCount count - values.length) := by
  obtain ⟨v, hv, hvalue⟩ : ∃ v, decodeLen build
      ((listMessage encodeValue tag sender count values tail).drop 36) = .ok (v, 8) ∧
        v.toNat = compactCount count := by
    rw [drop_listMessage]
    exact decodeLen_of_takesEight build height _
  constructor
  · intro hfit k hk
    rw [← fits_tail htrips]
    exact hfit v 8 hv (k + values.length) (by omega)
  · intro hfit count' count_bytes hcount k hk
    cases hv.symm.trans hcount
    rcases Nat.lt_or_ge k values.length with hlt | hge
    · exact fits_values htrips hlt
    · have htail : Fits libs (listMessage encodeValue tag sender count values tail)
          ((nextStart libs (listMessage encodeValue tag sender count values tail))^[k -
            values.length + values.length] 44) :=
        (fits_tail htrips _).mpr (hfit _ (by omega))
      rwa [Nat.sub_add_cancel hge] at htail

/-- **Aligned values are kept.** -/
theorem keepsValues_of_aligned (hsizes : libs.SizesFit) (htrips : libs.RoundTrips encodeValue)
    (build : Build) (htag : tag = 1 ∨ tag = 2)
    (hfast : libs.deserialize (listMessage encodeValue tag sender count values tail) = none)
    (haligned : Aligned libs count values tail) :
    KeepsValues libs build (listMessage encodeValue tag sender count values tail) tag sender
      values := by
  obtain ⟨v, hv, hvalue⟩ :=
    decodeLen_of_takesEight build haligned.eight (values.flatMap encodeValue ++ tail)
  refine (keepsValues_iff_stops hsizes build encodeValue htag sender count values tail hfast).mpr
    ⟨?_, (valuesFit_iff_tailFits build htrips haligned.eight).mpr haligned.tail, ?_⟩
  · rw [drop_listMessage, ← decodeLen_returns_iff]
    exact ⟨_, hv⟩
  · intro count' count_bytes hcount
    rw [drop_listMessage] at hcount
    cases hv.symm.trans hcount
    exact ⟨List.range values.length, List.range_sublist.mpr (hvalue ▸ haligned.many),
      (map_valueAt_range htrips drop_values).1⟩

/-- **Values that are kept are aligned**, when the first one cannot be read
anywhere else. -/
theorem aligned_of_keepsValues (hsizes : libs.SizesFit) (htrips : libs.RoundTrips encodeValue)
    (hsigned : libs.Signed) (htag : tag = 1 ∨ tag = 2) {first : T.CrdsValue}
    {others : List T.CrdsValue}
    (hfast : libs.deserialize (listMessage encodeValue tag sender count (first :: others) tail) =
      none)
    (honce : ReadOnce libs (listMessage encodeValue tag sender count (first :: others) tail) first)
    (hkeeps : KeepsValues libs build
      (listMessage encodeValue tag sender count (first :: others) tail) tag sender
      (first :: others)) : Aligned libs count (first :: others) tail := by
  obtain ⟨hcountFits, hvalues, hfound⟩ := (keepsValues_iff_stops hsizes build encodeValue htag
    sender count (first :: others) tail hfast).mp hkeeps
  obtain ⟨⟨count', count_bytes⟩, hcount⟩ := decodeLen_returns_iff.mpr hcountFits
  obtain ⟨stops, hstops, hmap⟩ := hfound count' count_bytes hcount
  -- the first value can only be found at the first stop, so that is its place
  have hlen : stops.length = (first :: others).length := by
    have := congrArg List.length hmap
    rwa [List.length_map, List.length_map] at this
  obtain ⟨stop, stops', rfl⟩ := List.exists_cons_of_length_pos (l := stops) (by rw [hlen]; simp)
  rw [List.map_cons, List.map_cons, List.cons.injEq] at hmap
  have hplace := honce _ hmap.1
  have hle := le_iterate_nextStart hsigned
    (listMessage encodeValue tag sender count (first :: others) tail) (36 + count_bytes) stop
  obtain rfl : stop = 0 := by omega
  rw [Function.iterate_zero_apply] at hplace
  obtain rfl : count_bytes = 8 := by omega
  have hrest : (first :: others).flatMap encodeValue ++ tail ≠ [] := by
    have hval := htrips.value first []
    have hsize := hsigned _ _ hval
    rw [htrips.size, Option.getD_some] at hsize
    intro hnil
    have hzero := congrArg List.length hnil
    rw [List.flatMap_cons, List.append_assoc, List.length_append, List.length_nil] at hzero
    omega
  rw [drop_listMessage] at hcount
  obtain ⟨height, hvalue⟩ := takesEight_of_decodeLen hrest hcount
  refine ⟨height, ?_, (valuesFit_iff_tailFits build htrips height).mp hvalues⟩
  have hmany := hstops.length_le
  rw [List.length_range, hlen] at hmany
  rwa [← hvalue]

/-- **When the values before a bad one survive.**  An empty list does when the
datagram is decoded at all.  Others do when the count, read as a compact length,
takes eight bytes, covers them, and fits the tail; and only then, unless the
first value can be read from other bytes of the message too. -/
theorem decodeFrom_keepsValues (hsizes : libs.SizesFit) (htrips : libs.RoundTrips encodeValue)
    (hsigned : libs.Signed) (build : Build) {tag : UInt32} (htag : tag = 1 ∨ tag = 2)
    (sender : Pubkey) (count : UInt64) (values : List T.CrdsValue) (tail : Bytes)
    (hfast : libs.deserialize (listMessage encodeValue tag sender count values tail) = none) :
    let bytes := listMessage encodeValue tag sender count values tail
    (values = [] → (KeepsValues libs build bytes tag sender values ↔
      CountFits build (bytes.drop 36) ∧ ValuesFit libs build bytes)) ∧
    (Aligned libs count values tail → KeepsValues libs build bytes tag sender values) ∧
    ∀ first others, values = first :: others → ReadOnce libs bytes first →
      (KeepsValues libs build bytes tag sender values ↔ Aligned libs count values tail) := by
  intro bytes
  have hkeeps : Aligned libs count values tail → KeepsValues libs build bytes tag sender values :=
    keepsValues_of_aligned hsizes htrips build htag hfast
  refine ⟨?_, hkeeps, ?_⟩
  · rintro rfl
    refine (keepsValues_iff_stops hsizes build encodeValue htag sender count [] tail hfast).trans
      ⟨fun h => ⟨h.1, h.2.1⟩, fun h => ⟨h.1, h.2, fun _ _ _ => ⟨[], List.nil_sublist _, rfl⟩⟩⟩
  · rintro first others rfl honce
    exact ⟨aligned_of_keepsValues hsizes htrips hsigned htag hfast honce, hkeeps⟩

end Messages

/-! ### Node instances -/

/-- A signed node instance: pubkey, wallclock, timestamp and token. -/
structure SignedNode where
  signature : Signature
  node : Vector UInt8 56
  deriving DecidableEq

abbrev NodeTypes : GossipTypes where
  CrdsFilter := Unit
  CrdsValue := SignedNode
  CrdsData := Vector UInt8 56
  Ping := Unit
  Pong := Unit

/-- The discriminant of a node instance. -/
def nodeTag : Bytes := [8, 0, 0, 0]

def encodeNode (val : SignedNode) : Bytes :=
  val.signature.toList ++ (nodeTag ++ val.node.toList)

def decodeNode (bytes : Bytes) : Option (Vector UInt8 56) :=
  if bytes.take 4 = nodeTag then getArr 56 bytes 4 else none

def decodeSigned (bytes : Bytes) : Option SignedNode := do
  let signature ← getArr 64 bytes 0
  let node ← decodeNode (bytes.drop 64)
  some { signature := signature, node := node }

/-- Libraries that know node instances, and no whole message. -/
def nodeLibs : GossipLibs NodeTypes where
  deserialize _ := none
  deserializeValue := decodeSigned
  sizeOfValue val := some (encodeNode val).length
  deserializeData := decodeNode
  sizeOfData _ := some 60

theorem length_encodeNode (val : SignedNode) : (encodeNode val).length = 124 := by
  simp [encodeNode, nodeTag]

theorem le_length_of_decodeNode {bytes : Bytes} {node : Vector UInt8 56}
    (h : decodeNode bytes = some node) : 60 ≤ bytes.length := by
  unfold decodeNode at h
  split_ifs at h
  exact (getRange_eq_some.mp (getArr_eq_some.mp h)).1.2

theorem nodeLibs_sizesFit : nodeLibs.SizesFit where
  value bytes val h := by
    obtain ⟨signature, -, hnode⟩ := Option.bind_eq_some_iff.mp h
    obtain ⟨node, hnode, -⟩ := Option.bind_eq_some_iff.mp hnode
    have hle := le_length_of_decodeNode hnode
    rw [List.length_drop] at hle
    show (encodeNode val).length ≤ bytes.length
    rw [length_encodeNode]
    omega
  data bytes node h := le_length_of_decodeNode h

theorem nodeLibs_roundTrips : nodeLibs.RoundTrips encodeNode where
  value val rest := by
    have hsig : getArr 64 (encodeNode val ++ rest) 0 = some val.signature := by
      rw [encodeNode, List.append_assoc]
      exact getArr_append [] _ rfl
    have hdrop : (encodeNode val ++ rest).drop 64 = nodeTag ++ (val.node.toList ++ rest) := by
      have hlen : val.signature.toList.length = 64 := Vector.length_toList
      rw [encodeNode, List.append_assoc, List.append_assoc]
      exact List.drop_left' hlen
    have hnode : getArr 56 (nodeTag ++ (val.node.toList ++ rest)) 4 = some val.node :=
      getArr_append nodeTag rest rfl
    show decodeSigned (encodeNode val ++ rest) = some val
    have hdata : decodeNode (nodeTag ++ (val.node.toList ++ rest)) = some val.node :=
      (if_pos rfl).trans hnode
    rw [decodeSigned, hsig, hdrop]
    show decodeNode _ >>= _ = _
    rw [hdata]
    rfl
  size val := rfl

def sampleNode : SignedNode where
  signature := Vector.replicate 64 9
  node := Vector.replicate 56 9

def sampleSender : Pubkey := Vector.replicate 32 9

theorem nodeLibs_signed : nodeLibs.Signed := by
  intro bytes val _
  show 64 ≤ (encodeNode val).length
  rw [length_encodeNode]
  decide

/-- A pull response with a node instance and a value that does not decode. -/
def sampleMessage : Bytes :=
  listMessage (T := NodeTypes) encodeNode 1 sampleSender 2 [sampleNode] (List.replicate 68 255)

/-- Two values, as a compact length of eight bytes. -/
def keptCount : UInt64 := 0x0080808080808082

/-- The same with a count that is right as a compact length. -/
def keptMessage : Bytes :=
  listMessage (T := NodeTypes) encodeNode 1 sampleSender keptCount [sampleNode]
    (List.replicate 68 255)

theorem readOnce_sampleMessage : ReadOnce nodeLibs sampleMessage sampleNode := by
  intro pos hread
  have hall : ∀ pos : Fin 236, decodeSigned (sampleMessage.drop pos) = some sampleNode →
      pos.val = 44 := by decide +kernel
  have hlen : sampleMessage.length = 236 := rfl
  rcases Nat.lt_or_ge pos 236 with hlt | hge
  · exact hall ⟨pos, hlt⟩ hread
  · rw [List.drop_eq_nil_of_le (hlen ▸ hge)] at hread
    cases hread

/-- The node instance is kept behind the one count, and lost behind the other. -/
theorem decodeFrom_keeps_node :
    (Aligned nodeLibs keptCount [sampleNode] (List.replicate 68 255) ∧
      KeepsValues nodeLibs .debug keptMessage 1 sampleSender [sampleNode]) ∧
    ¬ Aligned nodeLibs 2 [sampleNode] (List.replicate 68 255) ∧
      ¬ KeepsValues nodeLibs .debug sampleMessage 1 sampleSender [sampleNode] := by
  have haligned : Aligned nodeLibs keptCount [sampleNode] (List.replicate 68 255) := by
    have height : TakesEight keptCount :=
      ⟨[0x82, 0x80, 0x80, 0x80, 0x80, 0x80, 0x80], 0, rfl, by decide +kernel, rfl⟩
    refine ⟨height, by decide, ?_⟩
    have hcount : compactCount keptCount = 2 := rfl
    intro k hk
    rw [hcount, List.length_singleton] at hk
    omega
  have hnot : ¬ Aligned nodeLibs 2 [sampleNode] (List.replicate 68 255) := fun h =>
    absurd (two_pow_le_of_takesEight h.eight) (by decide)
  exact ⟨⟨haligned, (decodeFrom_keepsValues nodeLibs_sizesFit nodeLibs_roundTrips nodeLibs_signed
      .debug (.inl rfl) sampleSender keptCount [sampleNode] (List.replicate 68 255) rfl).2.1
        haligned⟩, hnot,
    fun hkeeps => hnot (((decodeFrom_keepsValues nodeLibs_sizesFit nodeLibs_roundTrips
      nodeLibs_signed .debug (.inl rfl) sampleSender 2 [sampleNode] (List.replicate 68 255)
        rfl).2.2 sampleNode [] rfl readOnce_sampleMessage).mp hkeeps)⟩

/-- The node instance is lost. -/
theorem decodeFrom_loses_node :
    ¬ ∀ (T : GossipTypes) (libs : GossipLibs T) (encodeValue : T.CrdsValue → Bytes),
      libs.SizesFit → libs.RoundTrips encodeValue → ∀ (build : Build) (tag : UInt32),
      tag = 1 ∨ tag = 2 → ∀ (sender : Pubkey) (count : UInt64) (values : List T.CrdsValue)
        (tail : Bytes) (bad : ℕ), count.toNat = values.length + bad →
      libs.deserializeValue tail = none →
      libs.deserialize (listMessage encodeValue tag sender count values tail) = none →
      KeepsValues libs build (listMessage encodeValue tag sender count values tail) tag sender
        values := by
  intro h
  obtain ⟨decoded, hok, hsub⟩ := h NodeTypes nodeLibs encodeNode nodeLibs_sizesFit
    nodeLibs_roundTrips .debug 1 (.inl rfl) sampleSender 2 [sampleNode] (List.replicate 68 255) 1
    rfl (by decide +kernel) rfl
  -- the fixed width count is read as a compact length, so all starts are off
  have hlost : decodeList nodeLibs .debug sampleMessage = .ok [] := by decide +kernel
  rw [decodeFrom_listMessage (.inl rfl) rfl] at hok
  rw [sampleMessage] at hlost
  rw [hlost] at hok
  have hnil : [] = decoded := listVariant_inj (Option.some.inj (Except.ok.inj hok))
  rw [← hnil] at hsub
  cases hsub

end Sg32
