/-
The wire grammar of transactions and entries, and how deshredding reads it.

Every reader is run at a cursor behind which an encoding stands, with any
bytes after it; it moves the cursor to the end of the encoding.

* `readShortu16_encodeLen` — compact lengths up to 65535;
* `compactLength_roundTrips` — compact lengths come back from both readers;
* `txLen_bytes` — the length of a transaction is found exactly;
* `deshredIntoTxs_stream` — an encoded entry stream is read back, however it
  is cut into payloads.
-/
import Sg32.Deshredder
import Sg32.Gossip.ShortVec

namespace Sg32

open Rust Bytes ShortVec

/-! ### Grammar -/

/-- A list short enough for a compact length. -/
structure ShortList (α : Type) where
  items : List α
  length_le : items.length ≤ 65535

/-- The length and the items. -/
def ShortList.bytes {α : Type} (list : ShortList α) (item : α → Bytes) : Bytes :=
  encodeLen list.items.length ++ list.items.flatMap item

/-- A byte string with its length. -/
def ShortList.blob (list : ShortList UInt8) : Bytes :=
  encodeLen list.items.length ++ list.items

structure Instruction where
  program_id_index : UInt8
  accounts : ShortList UInt8
  data : ShortList UInt8

structure AddressTableLookup where
  account_key : Vector UInt8 32
  writable_indexes : ShortList UInt8
  readonly_indexes : ShortList UInt8

def Instruction.bytes (ix : Instruction) : Bytes :=
  [ix.program_id_index] ++ (ix.accounts.blob ++ ix.data.blob)

def AddressTableLookup.bytes (lookup : AddressTableLookup) : Bytes :=
  lookup.account_key.toList ++ (lookup.writable_indexes.blob ++ lookup.readonly_indexes.blob)

/-- What a message starts with: a legacy message with its first header byte,
below 128; a versioned one with the version and the high bit. -/
inductive MessageStart
  | legacy (num_required_signatures : UInt8) (lt : num_required_signatures.toNat < 128)
  | versioned (version : UInt8) (lt : version.toNat < 128) (num_required_signatures : UInt8)
      (lookups : ShortList AddressTableLookup)

structure Transaction where
  signatures : ShortList (Vector UInt8 64)
  start : MessageStart
  num_readonly_signed : UInt8
  num_readonly_unsigned : UInt8
  account_keys : ShortList (Vector UInt8 32)
  recent_blockhash : Vector UInt8 32
  instructions : ShortList Instruction

namespace MessageStart

/-- The bytes up to the end of `num_required_signatures`. -/
def front : MessageStart → Bytes
  | .legacy num_required_signatures _ => [num_required_signatures]
  | .versioned version _ num_required_signatures _ =>
    [0x80 ||| version, num_required_signatures]

/-- The address-table lookups, which only a versioned message has. -/
def addressTableLookups : MessageStart → Option (ShortList AddressTableLookup)
  | .legacy _ _ => none
  | .versioned _ _ _ lookups => some lookups

/-- The bytes of the lookups. -/
def back (start : MessageStart) : Bytes :=
  match start.addressTableLookups with
  | none => []
  | some lookups => lookups.bytes AddressTableLookup.bytes

end MessageStart

def Transaction.bytes (tx : Transaction) : Bytes :=
  tx.signatures.bytes Vector.toList ++ (tx.start.front ++
    ([tx.num_readonly_signed, tx.num_readonly_unsigned] ++
      (tx.account_keys.bytes Vector.toList ++ (tx.recent_blockhash.toList ++
        (tx.instructions.bytes Instruction.bytes ++ tx.start.back)))))

/-! ### Numbers -/

/-- Or-ing a byte in above the bits already there adds it. -/
theorem toNat_or_shiftLeft {acc x : UInt16} {s : ℕ} (hs : s < 16) (hacc : acc.toNat < 2 ^ s)
    (hx : x.toNat * 2 ^ s < 2 ^ 16) :
    (acc ||| x <<< UInt16.ofNat s).toNat = acc.toNat + x.toNat * 2 ^ s := by
  have hshift : (UInt16.ofNat s).toNat = s := by
    rw [UInt16.toNat_ofNat']
    omega
  rw [UInt16.toNat_or, UInt16.toNat_shiftLeft, hshift, Nat.mod_eq_of_lt hs, ← or_shiftLeft hacc,
    Nat.shiftLeft_eq, Nat.mod_eq_of_lt hx]

theorem toNat_lowBits {n : ℕ} (hn : n < 256) :
    ((UInt8.ofNat n) &&& 0x7f).toUInt16.toNat = n % 128 := by
  rw [UInt8.toNat_toUInt16, toNat_low hn]

section Shortu16

variable {data tail : Bytes} {pos n : ℕ} {value : UInt16} {shift : ℕ} {shifts : List UInt16}

theorem readShortu16From_last (h : data.drop pos = UInt8.ofNat n :: tail) (hn : n < 128) :
    readShortu16From data (.ofNat shift :: shifts) pos value =
      some (value ||| ((UInt8.ofNat n) &&& 0x7f).toUInt16 <<< UInt16.ofNat shift, pos + 1) := by
  have hbit := (high_bit (n := n) (by omega)).mpr hn
  simp [readShortu16From, getElem?_of_drop h, hbit]

theorem readShortu16From_more (h : data.drop pos = UInt8.ofNat n :: tail) (hn : 128 ≤ n)
    (hn' : n < 256) :
    readShortu16From data (.ofNat shift :: shifts) pos value =
      readShortu16From data shifts (pos + 1)
        (value ||| ((UInt8.ofNat n) &&& 0x7f).toUInt16 <<< UInt16.ofNat shift) := by
  have hbit : (UInt8.ofNat n) &&& 0x80 ≠ 0 := by
    rw [Ne, high_bit hn']
    omega
  simp [readShortu16From, getElem?_of_drop h, hbit]

end Shortu16

/-- A compact length is read back, whatever follows it. -/
theorem readShortu16_encodeLen {data rest : Bytes} {pos n : ℕ}
    (h : data.drop pos = encodeLen n ++ rest) (hn : n ≤ 65535) :
    ∃ v, readShortu16 data pos = some (v, pos + (encodeLen n).length) ∧ v.toNat = n := by
  have hfirst : readShortu16 data pos =
      readShortu16From data [.ofNat 0, .ofNat 7, .ofNat 14] pos 0 := rfl
  have hlow0 : ∀ {m : ℕ}, m < 256 →
      (0 ||| ((UInt8.ofNat m) &&& 0x7f).toUInt16 <<< UInt16.ofNat 0).toNat = m % 128 := by
    intro m hm
    rw [toNat_or_shiftLeft (by omega) (by simp) (by rw [toNat_lowBits hm]; omega), toNat_lowBits hm]
    simp
  rcases Nat.lt_or_ge n 128 with h1 | h1
  · rw [encodeLen_one h1] at h ⊢
    exact ⟨_, hfirst.trans (readShortu16From_last h h1),
      by rw [hlow0 (by omega), Nat.mod_eq_of_lt h1]⟩
  rcases Nat.lt_or_ge n 16384 with h2 | h2
  · rw [encodeLen_two h1 h2] at h ⊢
    have hnext := drop_succ_of_drop h
    refine ⟨_, hfirst.trans ((readShortu16From_more h (by omega) (by omega)).trans
      (readShortu16From_last hnext (by omega))), ?_⟩
    have hacc := hlow0 (m := n % 128 + 128) (by omega)
    have hx := toNat_lowBits (n := n / 128) (by omega)
    rw [toNat_or_shiftLeft (by omega) (by rw [hacc]; omega) (by rw [hx]; omega), hacc, hx]
    omega
  · rw [encodeLen_three h2 (by omega)] at h ⊢
    have hnext := drop_succ_of_drop h
    have hlast := drop_succ_of_drop hnext
    refine ⟨_, hfirst.trans ((readShortu16From_more h (by omega) (by omega)).trans
      ((readShortu16From_more hnext (by omega) (by omega)).trans
        (readShortu16From_last hlast (by omega)))), ?_⟩
    have hacc := hlow0 (m := n % 128 + 128) (by omega)
    have hx := toNat_lowBits (n := n / 128 % 128 + 128) (by omega)
    have hy := toNat_lowBits (n := n / 16384) (by omega)
    have hacc' := toNat_or_shiftLeft (s := 7) (by omega) (by rw [hacc]; omega)
      (by rw [hx]; omega)
    rw [toNat_or_shiftLeft (by omega) (by rw [hacc', hacc, hx]; omega) (by rw [hy]; omega),
      hacc', hacc, hx, hy]
    omega

/-- **Compact lengths come back** from both readers, whatever stands around
them: 64 bits from `decodeLen`, which does not overflow, and 16 bits from
`readShortu16`. -/
theorem compactLength_roundTrips :
    (∀ (build : Build) (n : UInt64) (rest : Bytes),
      decodeLen build (encodeLen n.toNat ++ rest) = .ok (n, (encodeLen n.toNat).length)) ∧
    ∀ (n : UInt16) (before rest : Bytes),
      readShortu16 (before ++ (encodeLen n.toNat ++ rest)) before.length =
        some (n, before.length + (encodeLen n.toNat).length) := by
  refine ⟨decodeLen_encodeLen, fun n before rest => ?_⟩
  obtain ⟨v, hread, hv⟩ := readShortu16_encodeLen List.drop_left (Nat.le_of_lt_succ n.toNat_lt)
  rw [hread, UInt16.toNat_inj.mp hv]

theorem readU64_le64 {data rest : Bytes} {pos : ℕ} {x : UInt64}
    (h : data.drop pos = le64 x ++ rest) : readU64 data pos = some (x, pos + 8) := by
  have hrange := getRange_of_drop h (List.ne_nil_of_length_eq_add_one (length_le64 x))
  rw [length_le64] at hrange
  rw [readU64, hrange]
  simp [leNat_le64]

/-! ### Transactions -/

section Transactions

variable {data rest : Bytes} {p : ℕ}

/-- The length of a list is read, and the cursor is before its items. -/
theorem readShortu16_list {α : Type} (list : ShortList α) (items : Bytes)
    (h : data.drop p = encodeLen list.items.length ++ items ++ rest) :
    ∃ v p', readShortu16 data p = some (v, p') ∧ v.toNat = list.items.length ∧
      p' + items.length = p + (encodeLen list.items.length ++ items).length ∧
      data.drop p' = items ++ rest := by
  rw [List.append_assoc] at h
  obtain ⟨v, hread, hv⟩ := readShortu16_encodeLen h list.length_le
  exact ⟨v, _, hread, hv, by rw [List.length_append, Nat.add_assoc], drop_add_of_drop h⟩

/-- The items of a list of `w` bytes each. -/
theorem length_flatMap_const {α : Type} {item : α → Bytes} {w : ℕ}
    (hitem : ∀ x, (item x).length = w) (xs : List α) :
    (xs.flatMap item).length = xs.length * w := by
  induction xs with
  | nil => simp
  | cons x xs ih =>
    rw [List.flatMap_cons, List.length_append, hitem, ih, List.length_cons, Nat.add_one_mul,
      Nat.add_comm]

/-- One record is skipped exactly. -/
theorem skipRecords_record {fixed : Bytes} (first second : ShortList UInt8) (count : ℕ)
    (h : data.drop p = (fixed ++ (first.blob ++ second.blob)) ++ rest) :
    skipRecords fixed.length data (count + 1) p =
      skipRecords fixed.length data count (p + (fixed ++ (first.blob ++ second.blob)).length) := by
  rw [List.append_assoc, List.append_assoc] at h
  have hfirst := drop_add_of_drop h
  obtain ⟨v, q, hread, hv, hq, hdrop⟩ := readShortu16_list first first.items hfirst
  have hsecond := drop_add_of_drop hdrop
  obtain ⟨v', q', hread', hv', hq', -⟩ := readShortu16_list second second.items hsecond
  have hend : q' + second.items.length =
      p + (fixed ++ (first.blob ++ second.blob)).length := by
    rw [hq', hq]
    simp only [ShortList.blob, List.length_append]
    omega
  simp only [skipRecords, Option.bind_eq_bind, hread, Option.bind_some, hv, hread', hv', hend]

theorem skipRecords_flatMap {α : Type} {item : α → Bytes} {fixed : ℕ}
    (hitem : ∀ x, ∃ (front : Bytes) (first second : ShortList UInt8),
      front.length = fixed ∧ item x = front ++ (first.blob ++ second.blob))
    (xs : List α) (h : data.drop p = xs.flatMap item ++ rest) :
    skipRecords fixed data xs.length p = some (p + (xs.flatMap item).length) := by
  induction xs generalizing p with
  | nil => simp [skipRecords]
  | cons x xs ih =>
    obtain ⟨front, first, second, rfl, hx⟩ := hitem x
    rw [List.flatMap_cons, List.append_assoc, hx] at h
    rw [List.length_cons, skipRecords_record first second xs.length h,
      ih (drop_add_of_drop h), List.flatMap_cons, hx]
    simp only [List.length_append]
    congr 1
    omega

theorem skipInstructions_flatMap (xs : List Instruction)
    (h : data.drop p = xs.flatMap Instruction.bytes ++ rest) :
    skipInstructions data xs.length p = some (p + (xs.flatMap Instruction.bytes).length) := by
  have hitem : ∀ ix : Instruction, ∃ (front : Bytes) (first second : ShortList UInt8),
      front.length = 1 ∧ ix.bytes = front ++ (first.blob ++ second.blob) :=
    fun ix => ⟨[ix.program_id_index], ix.accounts, ix.data, rfl, rfl⟩
  exact skipRecords_flatMap hitem xs h

theorem skipLookups_flatMap (xs : List AddressTableLookup)
    (h : data.drop p = xs.flatMap AddressTableLookup.bytes ++ rest) :
    skipLookups data xs.length p = some (p + (xs.flatMap AddressTableLookup.bytes).length) := by
  have hitem : ∀ lookup : AddressTableLookup, ∃ (front : Bytes) (first second : ShortList UInt8),
      front.length = 32 ∧ lookup.bytes = front ++ (first.blob ++ second.blob) :=
    fun lookup => ⟨lookup.account_key.toList, lookup.writable_indexes, lookup.readonly_indexes,
      by simp, rfl⟩
  exact skipRecords_flatMap hitem xs h

/-- A list of items of `w` bytes each is stepped over. -/
theorem readShortu16_bytes {α : Type} {list : ShortList α} {item : α → Bytes} {w : ℕ}
    (hitem : ∀ x, (item x).length = w) (h : data.drop p = list.bytes item ++ rest) :
    ∃ v p', readShortu16 data p = some (v, p') ∧
      p' + v.toNat * w = p + (list.bytes item).length := by
  obtain ⟨v, p', hread, hv, hp, -⟩ := readShortu16_list list (list.items.flatMap item) h
  refine ⟨v, p', hread, ?_⟩
  rw [hv, ← length_flatMap_const hitem]
  exact hp

/-- The first message byte tells a versioned message from a legacy one. -/
theorem MessageStart.front_spec (start : MessageStart) {tail : Bytes}
    (h : data.drop p = start.front ++ tail) :
    ∃ first, data[p]? = some first ∧
      decide (first &&& 0x80 ≠ 0) = start.addressTableLookups.isSome := by
  cases start with
  | legacy num_required_signatures lt =>
    have hbit := (high_bit num_required_signatures.toNat_lt).mpr lt
    rw [UInt8.ofNat_toNat] at hbit
    exact ⟨_, getElem?_of_drop h, by simp [hbit, addressTableLookups]⟩
  | versioned version lt num_required_signatures lookups =>
    have hall : ∀ v : Fin 128, (0x80 ||| UInt8.ofNat v) &&& 0x80 ≠ 0 := by decide +kernel
    have hbit := hall ⟨version.toNat, lt⟩
    rw [UInt8.ofNat_toNat] at hbit
    exact ⟨_, getElem?_of_drop h, by simp [hbit, addressTableLookups]⟩

/-- The cursor behind the header. -/
theorem MessageStart.header_end (start : MessageStart) (p : ℕ) :
    (if start.addressTableLookups.isSome then p + 1 else p) + 3 = p + start.front.length + 2 := by
  cases start <;> rfl

theorem Transaction.bytes_ne_nil (tx : Transaction) : tx.bytes ≠ [] := by
  have hhash := tx.recent_blockhash.length_toList
  intro hnil
  have hlen := congrArg List.length hnil
  simp only [Transaction.bytes, List.length_append, List.length_nil] at hlen
  omega

/-- The lookups are stepped over when there are any. -/
theorem skip_back (start : MessageStart) (h : data.drop p = start.back ++ rest) :
    (if start.addressTableLookups.isSome then do
        let (num_lookups, p) ← readShortu16 data p
        skipLookups data num_lookups.toNat p
      else some p) = some (p + start.back.length) := by
  cases start with
  | legacy num_required_signatures lt => simp [MessageStart.addressTableLookups, MessageStart.back]
  | versioned version lt num_required_signatures lookups =>
    obtain ⟨v, p', hread, hv, hp, hdrop⟩ := readShortu16_list lookups
      (lookups.items.flatMap AddressTableLookup.bytes) h
    simp only [MessageStart.addressTableLookups, Option.isSome_some, if_true, Option.bind_eq_bind,
      hread, Option.bind_some, hv, skipLookups_flatMap _ hdrop, hp]
    rfl

/-- The length of a transaction is found exactly, whatever follows it. -/
theorem txLen_bytes (tx : Transaction) (h : data.drop p = tx.bytes ++ rest) :
    txLen data p = some tx.bytes.length := by
  have hend := add_le_of_drop h tx.bytes_ne_nil
  simp only [Transaction.bytes, List.append_assoc] at h
  -- the cursors behind the signatures, the header, the accounts and the instructions
  obtain ⟨sig_count, p₁, hsigs, hp₁⟩ := readShortu16_bytes (fun v => v.length_toList) h
  have hstart := drop_add_of_drop h
  obtain ⟨first, hfirst, hversioned⟩ := tx.start.front_spec hstart
  have hheader := tx.start.header_end (p + (tx.signatures.bytes Vector.toList).length)
  have haccounts : data.drop (_ + 2) = _ := drop_add_of_drop (drop_add_of_drop hstart)
  obtain ⟨num_accounts, p₂, haccts, hp₂⟩ := readShortu16_bytes (fun v => v.length_toList) haccounts
  have hhash := drop_add_of_drop haccounts
  have hixs := drop_add_of_drop hhash
  obtain ⟨num_ixs, p₃, hread, hcount, hp₃, hitems⟩ := readShortu16_list tx.instructions _ hixs
  have hskip := skipInstructions_flatMap tx.instructions.items hitems
  have hback := drop_add_of_drop hixs
  have hlookups := skip_back tx.start hback
  rw [Vector.length_toList] at hread hp₃ hlookups
  have hp₃' : p₃ + (tx.instructions.items.flatMap Instruction.bytes).length = _ +
      (tx.instructions.bytes Instruction.bytes).length := hp₃
  simp only [txLen, Option.bind_eq_bind, hsigs, Option.bind_some, hp₁, hfirst, hversioned,
    hheader, haccts, hp₂, hread, hcount, hskip, hp₃']
  refine (congrArg (fun q => Option.bind q fun q => if q > data.length then none
    else some (q - p)) hlookups).trans ?_
  have hlen : tx.bytes.length = (tx.signatures.bytes Vector.toList).length +
      tx.start.front.length + 2 + (tx.account_keys.bytes Vector.toList).length + 32 +
      (tx.instructions.bytes Instruction.bytes).length + tx.start.back.length := by
    simp only [Transaction.bytes, List.length_append, Vector.length_toList, List.length_cons,
      List.length_nil]
    omega
  rw [Option.bind_some, if_neg (by omega), Option.some.injEq]
  omega

/-- Transactions one after the other are cut apart. -/
theorem readTxs_flatMap (txs : List Transaction)
    (h : data.drop p = txs.flatMap Transaction.bytes ++ rest) :
    readTxs data txs.length p =
      .ok (some (txs.map Transaction.bytes, p + (txs.flatMap Transaction.bytes).length)) := by
  induction txs generalizing p with
  | nil => rfl
  | cons tx txs ih =>
    rw [List.flatMap_cons, List.append_assoc] at h
    have hslice : slice data p (p + tx.bytes.length) = .ok tx.bytes := by
      rw [slice_of_le (Nat.le_add_right _ _) (add_le_of_drop h tx.bytes_ne_nil), h,
        Nat.add_sub_cancel_left, List.take_left]
    rw [List.length_cons, readTxs, txLen_bytes tx h]
    simp only [hslice, ok_bind, ih (drop_add_of_drop h)]
    rw [List.flatMap_cons, List.length_append, ← Nat.add_assoc]
    rfl

end Transactions

/-! ### Entries -/

/-- An entry as it is serialized. -/
structure WireEntry where
  num_hashes : UInt64
  hash : Vector UInt8 32
  transactions : List Transaction
  length_le : transactions.length ≤ 100000

namespace WireEntry

def bytes (entry : WireEntry) : Bytes :=
  le64 entry.num_hashes ++ (entry.hash.toList ++
    (le64 (.ofNat entry.transactions.length) ++ entry.transactions.flatMap Transaction.bytes))

/-- The entry that deshredding should give. -/
def entry (entry : WireEntry) : Entry where
  num_hashes := entry.num_hashes
  hash := entry.hash
  transactions := entry.transactions.map Transaction.bytes

end WireEntry

/-- `Vec<Entry>`: the number of entries and the entries. -/
def streamBytes (entries : List WireEntry) : Bytes :=
  le64 (.ofNat entries.length) ++ entries.flatMap WireEntry.bytes

section Entries

variable {data rest : Bytes} {pos : ℕ}

theorem readEntry_bytes (entry : WireEntry) (h : data.drop pos = entry.bytes ++ rest) :
    readEntry data pos = .ok (some (entry.entry, pos + entry.bytes.length)) := by
  have hcount : (UInt64.ofNat entry.transactions.length).toNat = entry.transactions.length :=
    UInt64.toNat_ofNat_of_lt' (lt_of_le_of_lt entry.length_le (by decide))
  have hle : UInt64.ofNat entry.transactions.length ≤ 100000 := by
    rw [UInt64.le_iff_toNat_le, hcount]
    exact entry.length_le
  simp only [WireEntry.bytes, List.append_assoc] at h
  have hhash := drop_add_of_drop h
  rw [length_le64] at hhash
  have hread : getArr 32 data (pos + 8) = some entry.hash := by
    have hrange := getRange_of_drop hhash
      (List.ne_nil_of_length_eq_add_one entry.hash.length_toList)
    rw [Vector.length_toList] at hrange
    exact getArr_eq_some.mpr hrange
  have htxcount := drop_add_of_drop hhash
  rw [Vector.length_toList] at htxcount
  have htxs := drop_add_of_drop htxcount
  rw [length_le64] at htxs
  rw [readEntry, readU64_le64 h]
  simp only [hread, readU64_le64 htxcount, hle, if_true, hcount, readTxs_flatMap _ htxs, ok_bind]
  have hlen : pos + 8 + 32 + 8 + (entry.transactions.flatMap Transaction.bytes).length =
      pos + entry.bytes.length := by
    simp only [WireEntry.bytes, List.length_append, length_le64, Vector.length_toList]
    omega
  rw [hlen]
  rfl

theorem readEntries_flatMap (entries : List WireEntry)
    (h : data.drop pos = entries.flatMap WireEntry.bytes ++ rest) :
    readEntries data entries.length pos = .ok (entries.map WireEntry.entry) := by
  induction entries generalizing pos with
  | nil => rfl
  | cons entry entries ih =>
    rw [List.flatMap_cons, List.append_assoc] at h
    rw [List.length_cons, readEntries, readEntry_bytes entry h]
    simp only [ok_bind, ih (drop_add_of_drop h)]
    rfl

end Entries

/-- **Deshredding undoes serialization**: an entry stream, cut into payloads
anywhere and with any bytes behind it, gives its entries and, in order, the
bytes of its transactions. -/
theorem deshredIntoTxs_stream {entries : List WireEntry} (hne : entries ≠ [])
    (hle : entries.length ≤ 1000000) {payloads : List Bytes} {trailing : Bytes}
    (hcut : payloads.flatten = streamBytes entries ++ trailing) :
    deshredIntoTxs payloads = .ok (some {
      entries := entries.map WireEntry.entry
      transactions := entries.flatMap fun e => e.transactions.map Transaction.bytes }) := by
  have hcount : (UInt64.ofNat entries.length).toNat = entries.length :=
    UInt64.toNat_ofNat_of_lt' (lt_of_le_of_lt hle (by decide))
  rw [streamBytes, List.append_assoc] at hcut
  have hstart : payloads.flatten.drop 0 = _ := hcut
  have hentries := drop_add_of_drop hstart
  rw [length_le64] at hentries
  -- none of the guards applies, and the entries are read back
  have hlong : ¬ payloads.flatten.length < 8 := by
    rw [hcut, List.length_append, length_le64]
    omega
  have hfew : ¬ UInt64.ofNat entries.length > 1000000 := by
    rw [gt_iff_lt, UInt64.lt_iff_toNat_lt, hcount]
    exact Nat.not_lt.mpr hle
  have hsome : (entries.map WireEntry.entry).isEmpty = false := by
    simpa using hne
  have htxs : (entries.map WireEntry.entry).flatMap Entry.transactions =
      entries.flatMap fun e => e.transactions.map Transaction.bytes := by
    rw [List.flatMap_map]
    rfl
  simp only [deshredIntoTxs, if_neg hlong, readU64_le64 hstart, if_neg hfew, hcount,
    readEntries_flatMap _ hentries, ok_bind, hsome, htxs]
  rfl

/-- A legacy transaction with one instruction. -/
def legacySample : Transaction where
  signatures := ⟨[Vector.replicate 64 1], by simp⟩
  start := .legacy 1 (by decide)
  num_readonly_signed := 0
  num_readonly_unsigned := 1
  account_keys := ⟨[Vector.replicate 32 2, Vector.replicate 32 3], by simp⟩
  recent_blockhash := Vector.replicate 32 4
  instructions := ⟨[⟨1, ⟨[0], by simp⟩, ⟨[5, 6], by simp⟩⟩], by simp⟩

/-- A versioned transaction with one lookup. -/
def versionedSample : Transaction :=
  { legacySample with
    start := .versioned 0 (by decide) 1
      ⟨[⟨Vector.replicate 32 7, ⟨[0, 1], by simp⟩, ⟨[], by simp⟩⟩], by simp⟩ }

def sampleEntry : WireEntry where
  num_hashes := 12
  hash := Vector.replicate 32 8
  transactions := [legacySample, versionedSample]
  length_le := by simp

theorem deshredIntoTxs_sample :
    deshredIntoTxs [[], (streamBytes [sampleEntry]).take 5, [],
        (streamBytes [sampleEntry]).drop 5 ++ [255]] =
      .ok (some {
        entries := [sampleEntry].map WireEntry.entry
        transactions := [sampleEntry].flatMap fun e => e.transactions.map Transaction.bytes }) :=
  deshredIntoTxs_stream (List.cons_ne_nil _ _) (by decide)
    (show _ = streamBytes [sampleEntry] ++ [255] by
      simp only [List.flatten_cons, List.flatten_nil, List.nil_append, List.append_nil]
      rw [← List.append_assoc, List.take_append_drop])

end Sg32
