/-
What deshredding cuts out of a byte stream (`deshred_into_txs`).

Whatever the payloads are, the entries are read off the stream in order and
without gaps, and reading goes on as long as complete entries follow.

* `EntryAt` — a complete entry stands between two cursors;
* `readEntry_eq_some_iff` — the entry that is read is the one that stands there;
* `deshredIntoTxs_exact` — the entries, serialized, are what follows the count;
* `deshredIntoTxs_prefix` — more bytes add entries and change none.
-/
import Mathlib.Data.List.Infix
import Sg32.EntryStream

namespace Sg32

open Rust Bytes

/-- An entry as it stands in the stream. -/
def Entry.bytes (entry : Entry) : Bytes :=
  le64 entry.num_hashes ++ (entry.hash.toList ++
    (le64 (.ofNat entry.transactions.length) ++ entry.transactions.flatten))

/-- Transactions that `txLen` accepts, one after the other between two cursors. -/
inductive TxsAt (data : Bytes) : ℕ → List Bytes → ℕ → Prop
  | nil (pos : ℕ) : TxsAt data pos [] pos
  | cons {pos next : ℕ} {tx : Bytes} {txs : List Bytes} (len : txLen data pos = some tx.length)
      (tx_bytes : Between data pos (pos + tx.length) tx)
      (rest : TxsAt data (pos + tx.length) txs next) : TxsAt data pos (tx :: txs) next

/-- A complete entry between two cursors. -/
structure EntryAt (data : Bytes) (pos : ℕ) (entry : Entry) (next : ℕ) : Prop where
  bytes : Between data pos next entry.bytes
  few : entry.transactions.length ≤ 100000
  txs : TxsAt data (pos + 48) entry.transactions next

variable {data : Bytes} {pos next : ℕ} {entry : Entry} {txs : List Bytes}

/-! ### What is read stands there -/

theorem readU64_eq_some_iff {value : UInt64} :
    readU64 data pos = some (value, next) ↔ Between data pos next (le64 value) := by
  constructor
  · intro h
    simp only [readU64, Option.bind_eq_bind, Option.bind_eq_some_iff, Option.some.injEq,
      Prod.mk.injEq] at h
    obtain ⟨bs, hbs, rfl, rfl⟩ := h
    have hlen : bs.length = 8 := by simpa using length_of_getRange hbs
    rw [le64_ofNat_leNat hlen]
    exact (getRange_iff_between (List.ne_nil_of_length_eq_add_one hlen)).mp hbs
  · rintro ⟨hdrop, rfl⟩
    rw [readU64_le64 hdrop, length_le64]

theorem getArr_eq_some_iff {N : ℕ} {arr : Vector UInt8 (N + 1)} :
    getArr (N + 1) data pos = some arr ↔ Between data pos (pos + (N + 1)) arr.toList := by
  rw [getArr_eq_some]
  exact getRange_iff_between (List.ne_nil_of_length_eq_add_one arr.length_toList)

theorem TxsAt.between (h : TxsAt data pos txs next) : Between data pos next txs.flatten := by
  induction h with
  | nil pos => exact between_nil data pos
  | cons len tx_bytes rest ih => exact tx_bytes.append ih

theorem slice_eq_ok_iff {len : ℕ} {bs : Bytes} (hle : pos + len ≤ data.length) :
    slice data pos (pos + len) = .ok bs ↔
      bs.length = len ∧ Between data pos (pos + bs.length) bs := by
  rw [slice_of_le (Nat.le_add_right _ _) hle, Nat.add_sub_cancel_left]
  constructor
  · intro h
    obtain rfl := Except.ok.inj h
    have hlen : ((data.drop pos).take len).length = len := by
      rw [List.length_take, List.length_drop]
      omega
    refine ⟨hlen, ?_, rfl⟩
    rw [hlen, ← List.drop_drop, List.take_append_drop]
  · rintro ⟨rfl, hdrop, -⟩
    rw [hdrop, List.take_left]

theorem readTxs_eq_some_iff {tx_count : ℕ} :
    readTxs data tx_count pos = .ok (some (txs, next)) ↔
      txs.length = tx_count ∧ TxsAt data pos txs next := by
  -- induction on the transactions still to be read
  induction tx_count generalizing pos txs with
  | zero =>
    constructor
    · intro h
      cases h
      exact ⟨rfl, .nil _⟩
    · rintro ⟨hlen, h⟩
      obtain rfl := List.eq_nil_of_length_eq_zero hlen
      cases h
      rfl
  | succ tx_count ih =>
    rw [readTxs]
    constructor
    · intro h
      cases hlen : txLen data pos with
      | none =>
        rw [hlen] at h
        cases h
      | some len =>
        simp only [hlen] at h
        obtain ⟨tx, htx, h⟩ := bind_eq_ok.mp h
        obtain ⟨rest, hrest, h⟩ := bind_eq_ok.mp h
        obtain ⟨⟨txs', next'⟩, rfl, heq⟩ := Option.map_eq_some_iff.mp (Except.ok.inj h)
        cases heq
        obtain ⟨rfl, hbytes⟩ := (slice_eq_ok_iff (add_txLen_le hlen)).mp htx
        obtain ⟨rfl, htxs⟩ := ih.mp hrest
        exact ⟨rfl, .cons hlen hbytes htxs⟩
    · rintro ⟨hcount, h⟩
      cases h with
      | nil => cases hcount
      | cons hlen hbytes hrest =>
        have hslice := (slice_eq_ok_iff (add_txLen_le hlen)).mpr ⟨rfl, hbytes⟩
        have hread := ih.mpr ⟨Nat.succ.inj hcount, hrest⟩
        simp only [hlen, hslice, ok_bind, hread]
        rfl

/-- The number of transactions, as it is written and read. -/
theorem toNat_ofNat_of_few {n : ℕ} (h : n ≤ 100000) :
    (UInt64.ofNat n).toNat = n ∧ UInt64.ofNat n ≤ 100000 := by
  have hn : (UInt64.ofNat n).toNat = n := UInt64.toNat_ofNat_of_lt' (lt_of_le_of_lt h (by decide))
  refine ⟨hn, ?_⟩
  rw [UInt64.le_iff_toNat_le, hn]
  exact h

/-- The four parts of an entry, each between its cursors. -/
theorem entryAt_iff :
    EntryAt data pos entry next ↔
      Between data pos (pos + 8) (le64 entry.num_hashes) ∧
        Between data (pos + 8) (pos + 8 + 32) entry.hash.toList ∧
        Between data (pos + 8 + 32) (pos + 8 + 32 + 8)
          (le64 (.ofNat entry.transactions.length)) ∧
        entry.transactions.length ≤ 100000 ∧
        TxsAt data (pos + 8 + 32 + 8) entry.transactions next := by
  constructor
  · rintro ⟨⟨hdrop, -⟩, hfew, htxs⟩
    simp only [Entry.bytes, List.append_assoc] at hdrop
    have hnum := between_of_drop hdrop
    rw [length_le64] at hnum
    have hhash := between_of_drop (drop_add_of_drop hdrop)
    rw [length_le64, Vector.length_toList] at hhash
    have hcount := between_of_drop (drop_add_of_drop (drop_add_of_drop hdrop))
    rw [length_le64, length_le64, Vector.length_toList] at hcount
    exact ⟨hnum, hhash, hcount, hfew, htxs⟩
  · rintro ⟨hnum, hhash, hcount, hfew, htxs⟩
    exact ⟨hnum.append (hhash.append (hcount.append htxs.between)), hfew, htxs⟩

/-- The entry that is read is the one that stands at the cursor. -/
theorem readEntry_eq_some_iff :
    readEntry data pos = .ok (some (entry, next)) ↔ EntryAt data pos entry next := by
  rw [entryAt_iff]
  constructor
  · intro h
    unfold readEntry at h
    split at h
    · cases h
    rename_i num_hashes p₁ hnum
    split at h
    · cases h
    rename_i hash hhash
    split at h
    · cases h
    rename_i tx_count p₂ hcount
    split_ifs at h with hfew
    · obtain ⟨txs, htxs, h⟩ := bind_eq_ok.mp h
      obtain ⟨⟨transactions, next'⟩, rfl, heq⟩ := Option.map_eq_some_iff.mp (Except.ok.inj h)
      cases heq
      rw [readU64_eq_some_iff] at hnum hcount
      rw [getArr_eq_some_iff] at hhash
      obtain ⟨hlen, htxs⟩ := readTxs_eq_some_iff.mp htxs
      -- each cursor is where the part before it ends
      obtain rfl : pos + 8 = p₁ := by simpa using hnum.2
      obtain rfl : pos + 8 + 32 + 8 = p₂ := by simpa using hcount.2
      have hle : transactions.length ≤ 100000 := hlen ▸ UInt64.le_iff_toNat_le.mp hfew
      have hwritten : UInt64.ofNat transactions.length = tx_count := by
        rw [hlen, UInt64.ofNat_toNat]
      exact ⟨hnum, hhash, hwritten ▸ hcount, hle, htxs⟩
    · cases h
  · rintro ⟨hnum, hhash, hcount, hfew, htxs⟩
    obtain ⟨hlen, hle⟩ := toNat_ofNat_of_few hfew
    have hread := readTxs_eq_some_iff.mpr ⟨rfl, htxs⟩
    rw [readEntry, readU64_eq_some_iff.mpr hnum]
    simp only [getArr_eq_some_iff.mpr hhash, readU64_eq_some_iff.mpr hcount, hle,
      if_true, hlen, hread, ok_bind]
    rfl

/-! ### The entries of a stream -/

/-- One more entry is read, or there is none at the cursor. -/
theorem readEntries_cases {num_entries : ℕ} {entries : List Entry}
    (h : readEntries data (num_entries + 1) pos = .ok entries) :
    (entries = [] ∧ ∀ entry next, ¬ EntryAt data pos entry next) ∨
      ∃ entry next rest, entries = entry :: rest ∧ EntryAt data pos entry next ∧
        readEntries data num_entries next = .ok rest := by
  rw [readEntries] at h
  obtain ⟨read, hread, h⟩ := bind_eq_ok.mp h
  rcases read with _ | ⟨entry, next⟩
  · cases h
    refine .inl ⟨rfl, fun entry next hat => ?_⟩
    rw [readEntry_eq_some_iff.mpr hat] at hread
    cases hread
  · obtain ⟨rest, hrest, h⟩ := bind_eq_ok.mp h
    cases h
    exact .inr ⟨entry, next, rest, rfl, readEntry_eq_some_iff.mp hread, hrest⟩

/-- The entries that are read stand one after the other, and fewer than asked
for are read only when no further one stands there. -/
theorem between_readEntries {num_entries : ℕ} {entries : List Entry}
    (h : readEntries data num_entries pos = .ok entries) :
    ∃ next, Between data pos next (entries.flatMap Entry.bytes) ∧
      entries.length ≤ num_entries ∧
      (entries.length < num_entries → ∀ entry next', ¬ EntryAt data next entry next') := by
  -- induction on the entries still to be read
  induction num_entries generalizing pos entries with
  | zero =>
    cases h
    exact ⟨pos, between_nil data pos, le_rfl, fun hlt => absurd hlt (lt_irrefl _)⟩
  | succ num_entries ih =>
    rcases readEntries_cases h with ⟨rfl, hnone⟩ | ⟨entry, mid, rest, rfl, hat, hrest⟩
    · exact ⟨pos, between_nil data pos, Nat.zero_le _, fun _ => hnone⟩
    · obtain ⟨next, hbetween, hle, hmore⟩ := ih hrest
      refine ⟨next, hat.bytes.append hbetween, Nat.succ_le_succ hle, ?_⟩
      intro hlt
      exact hmore (Nat.lt_of_succ_lt_succ hlt)

/-- What a stream that gives a block looks like to the code. -/
theorem deshredIntoTxs_eq_some_iff {data_payloads : List Bytes} {result : DeshredResult} :
    deshredIntoTxs data_payloads = .ok (some result) ↔
      ∃ declared : UInt64, Between data_payloads.flatten 0 8 (le64 declared) ∧
        declared ≤ 1000000 ∧
        readEntries data_payloads.flatten declared.toNat 8 = .ok result.entries ∧
        result.entries ≠ [] ∧
        result.transactions = result.entries.flatMap Entry.transactions := by
  constructor
  · intro h
    obtain ⟨declared, pos, hnum, hrest⟩ := deshredIntoTxs_cases h
    rw [readU64_eq_some_iff] at hnum
    obtain rfl : 0 + 8 = pos := by simpa using hnum.2
    exact ⟨declared, hnum, hrest⟩
  · rintro ⟨declared, hnum, hfew, hentries, hne, htxs⟩
    have hlong : ¬ data_payloads.flatten.length < 8 := by
      have hle := add_le_of_drop hnum.1 (List.ne_nil_of_length_eq_add_one (length_le64 declared))
      rw [length_le64] at hle
      omega
    have hempty : result.entries.isEmpty = false := by simpa using hne
    rw [deshredIntoTxs, if_neg hlong, readU64_eq_some_iff.mpr hnum]
    simp only [if_neg (UInt64.not_lt.mpr hfew), hentries, ok_bind, hempty, ← htxs]
    rfl

/-- **Deshredding invents, drops and reorders nothing**: it does not panic, and
the entries that it gives, serialized, follow the declared number of entries in
the stream.  There is at least one and there are at most as many as declared,
and fewer only when no complete entry comes next. -/
theorem deshredIntoTxs_exact (data_payloads : List Bytes) :
    Returns (deshredIntoTxs data_payloads) ∧
      ∀ result, deshredIntoTxs data_payloads = .ok (some result) →
        ∃ (declared : UInt64) (rest : Bytes),
          data_payloads.flatten =
            le64 declared ++ (result.entries.flatMap Entry.bytes ++ rest) ∧
          1 ≤ result.entries.length ∧ result.entries.length ≤ declared.toNat ∧
          (result.entries.length < declared.toNat → ∀ entry next, ¬ EntryAt
            data_payloads.flatten (8 + (result.entries.flatMap Entry.bytes).length)
            entry next) := by
  refine ⟨deshredIntoTxs_returns data_payloads, ?_⟩
  intro result h
  obtain ⟨declared, hnum, -, hentries, hne, -⟩ := deshredIntoTxs_eq_some_iff.mp h
  obtain ⟨next, ⟨hdrop, rfl⟩, hle, hmore⟩ := between_readEntries hentries
  refine ⟨declared, data_payloads.flatten.drop (8 + (result.entries.flatMap Entry.bytes).length),
    ?_, List.length_pos_iff.mpr hne, hle, hmore⟩
  rw [← hdrop]
  exact hnum.1

/-! ### Longer streams -/

theorem stable_readShortu16From (shifts : List UInt16) (pos : ℕ) (value : UInt16) :
    Stable fun data => readShortu16From data shifts pos value := by
  induction shifts generalizing pos value with
  | nil => exact stable_const none
  | cons shift shifts ih =>
    refine (stable_getElem? pos).bind fun byte => ?_
    dsimp only
    split_ifs with hlast
    · exact stable_const _
    · exact ih _ _

theorem stable_readShortu16 (pos : ℕ) : Stable fun data => readShortu16 data pos :=
  stable_readShortu16From _ _ _

theorem stable_skipRecords (fixed count p : ℕ) :
    Stable fun data => skipRecords fixed data count p := by
  induction count generalizing p with
  | zero => exact stable_const _
  | succ count ih =>
    exact (stable_readShortu16 _).bind fun _ => (stable_readShortu16 _).bind fun _ => ih _

/-- Transactions are found at the same places in a longer stream. -/
theorem stable_txLen (start : ℕ) : Stable fun data => txLen data start := by
  refine (stable_readShortu16 start).bind fun (sig_count, p) => ?_
  refine (stable_getElem? _).bind fun first => ?_
  refine (stable_readShortu16 _).bind fun (num_accounts, p) => ?_
  refine (stable_readShortu16 _).bind fun (num_ixs, p) => ?_
  refine (stable_skipRecords 1 _ _).bind fun p => ?_
  refine Stable.bind ?_ fun p => stable_of_le p _
  -- the lookups of a versioned transaction
  split_ifs with hversioned
  · exact (stable_readShortu16 p).bind fun (num_lookups, p) => stable_skipRecords 32 _ _
  · exact stable_const _

theorem TxsAt.of_prefix {more : Bytes} (h : TxsAt data pos txs next) (hle : data <+: more) :
    TxsAt more pos txs next := by
  induction h with
  | nil pos => exact .nil pos
  | cons len tx_bytes rest ih => exact .cons (stable_txLen _ hle _ len) (tx_bytes.of_prefix hle) ih

theorem EntryAt.of_prefix {more : Bytes} (h : EntryAt data pos entry next) (hle : data <+: more) :
    EntryAt more pos entry next where
  bytes := h.bytes.of_prefix hle
  few := h.few
  txs := h.txs.of_prefix hle

theorem readEntries_prefix {more : Bytes} (hle : data <+: more) {num_entries : ℕ}
    {entries : List Entry} (h : readEntries data num_entries pos = .ok entries) :
    ∃ entries', readEntries more num_entries pos = .ok entries' ∧ entries <+: entries' := by
  induction num_entries generalizing pos entries with
  | zero =>
    cases h
    exact ⟨[], rfl, List.prefix_rfl⟩
  | succ num_entries ih =>
    rcases readEntries_cases h with ⟨rfl, -⟩ | ⟨entry, mid, rest, rfl, hat, hrest⟩
    · obtain ⟨entries', hread⟩ := readEntries_returns more (num_entries + 1) pos
      exact ⟨entries', hread, List.nil_prefix⟩
    · obtain ⟨rest', hread, hprefix⟩ := ih hrest
      refine ⟨entry :: rest', ?_, (List.prefix_cons_inj entry).mpr hprefix⟩
      rw [readEntries, readEntry_eq_some_iff.mpr (hat.of_prefix hle), ok_bind]
      simp only [hread, ok_bind]
      rfl

/-- **A truncated stream gives an initial part of the entries**, and no
transaction changes when more bytes arrive. -/
theorem deshredIntoTxs_prefix {payloads payloads' : List Bytes} {result : DeshredResult}
    (hle : payloads.flatten <+: payloads'.flatten)
    (h : deshredIntoTxs payloads = .ok (some result)) :
    ∃ result', deshredIntoTxs payloads' = .ok (some result') ∧
      result.entries <+: result'.entries ∧ result.transactions <+: result'.transactions := by
  obtain ⟨declared, hnum, hfew, hentries, hne, htxs⟩ := deshredIntoTxs_eq_some_iff.mp h
  obtain ⟨entries', hread, hprefix⟩ := readEntries_prefix hle hentries
  refine ⟨⟨entries', entries'.flatMap Entry.transactions⟩, ?_, hprefix, ?_⟩
  · refine deshredIntoTxs_eq_some_iff.mpr ⟨declared, hnum.of_prefix hle, hfew, hread, ?_, rfl⟩
    rintro rfl
    exact hne (List.prefix_nil.mp hprefix)
  · rw [htxs]
    exact hprefix.flatMap _

/-- An entry with a transaction without signatures. -/
def oneTxEntry (fill : UInt8) : Entry where
  num_hashes := 5
  hash := Vector.replicate 32 9
  transactions := [[0, 1, 0, 0, 0] ++ List.replicate 32 fill ++ [0]]

/-- The second entry breaks off within its transaction. -/
theorem deshredIntoTxs_prefix_sample : ∃ result',
    deshredIntoTxs [le64 2, (oneTxEntry 4).bytes, (oneTxEntry 6).bytes] = .ok (some result') ∧
      [oneTxEntry 4] <+: result'.entries ∧
      (oneTxEntry 4).transactions <+: result'.transactions := by
  have hle : [le64 2 ++ (oneTxEntry 4).bytes, (oneTxEntry 6).bytes.take 60].flatten <+:
      [le64 2, (oneTxEntry 4).bytes, (oneTxEntry 6).bytes].flatten :=
    ⟨(oneTxEntry 6).bytes.drop 60, by decide +kernel⟩
  have h : deshredIntoTxs [le64 2 ++ (oneTxEntry 4).bytes, (oneTxEntry 6).bytes.take 60] =
      .ok (some { entries := [oneTxEntry 4], transactions := (oneTxEntry 4).transactions }) := by
    decide +kernel
  exact deshredIntoTxs_prefix hle h

end Sg32
