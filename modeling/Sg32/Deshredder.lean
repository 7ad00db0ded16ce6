/-
Deshredding (`deshredder.rs`).

The concatenated payloads of an erasure set are a stream of entries.  `txLen`
finds the end of a transaction without decoding it, and `deshredIntoTxs` cuts
the stream into entries and transactions; a stream that ends early gives the
entries that are complete.
-/
import Sg32.Foundation.Bytes
import Sg32.Foundation.Panic

namespace Sg32

open Rust Bytes

structure Entry where
  num_hashes : UInt64
  hash : Vector UInt8 32
  transactions : List Bytes
  deriving DecidableEq

structure DeshredResult where
  entries : List Entry
  transactions : List Bytes
  deriving DecidableEq

/-! ### Numbers

The cursor `pos` is passed in and the new cursor is returned; it stays near
the length of the data, so that adding to it does not overflow. -/

/-- The loop of `read_shortu16`, over the shifts still allowed. -/
def readShortu16From (data : Bytes) : List UInt16 → ℕ → UInt16 → Option (UInt16 × ℕ)
  | [], _, _ => none
  | shift :: shifts, pos, value => do
    let byte ← data[pos]?
    let pos := pos + 1
    let value := value ||| ((byte &&& 0x7f).toUInt16 <<< shift)
    if byte &&& 0x80 = 0 then some (value, pos) else readShortu16From data shifts pos value

def readShortu16 (data : Bytes) (pos : ℕ) : Option (UInt16 × ℕ) :=
  readShortu16From data [0, 7, 14] pos 0

def readU64 (data : Bytes) (pos : ℕ) : Option (UInt64 × ℕ) := do
  let v ← getRange data pos (pos + 8)
  some (.ofNat (leNat v), pos + 8)

/-! ### Transactions -/

/-- `count` records, each with `fixed` bytes and two byte strings that carry
their lengths: instructions and address-table lookups. -/
def skipRecords (fixed : ℕ) (data : Bytes) : ℕ → ℕ → Option ℕ
  | 0, p => some p
  | count + 1, p => do
    let p := p + fixed
    let (first_len, p) ← readShortu16 data p
    let p := p + first_len.toNat
    let (second_len, p) ← readShortu16 data p
    let p := p + second_len.toNat
    skipRecords fixed data count p

def skipInstructions : Bytes → ℕ → ℕ → Option ℕ := skipRecords 1

def skipLookups : Bytes → ℕ → ℕ → Option ℕ := skipRecords 32

/-- The length of the transaction that starts at `start`. -/
def txLen (data : Bytes) (start : ℕ) : Option ℕ := do
  let p := start
  let (sig_count, p) ← readShortu16 data p
  let p := p + sig_count.toNat * 64
  let first ← data[p]?
  let versioned : Bool := first &&& 0x80 ≠ 0
  let p := if versioned then p + 1 else p
  let p := p + 3
  let (num_accounts, p) ← readShortu16 data p
  let p := p + num_accounts.toNat * 32
  let p := p + 32
  let (num_ixs, p) ← readShortu16 data p
  let p ← skipInstructions data num_ixs.toNat p
  let p ← (if versioned then do
      let (num_lookups, p) ← readShortu16 data p
      skipLookups data num_lookups.toNat p
    else some p)
  if p > data.length then none else some (p - start)

/-! ### Entries -/

/-- `tx_count` transactions; `none` when one of them is not complete. -/
def readTxs (data : Bytes) : ℕ → ℕ → Checked (Option (List Bytes × ℕ))
  | 0, pos => pure (some ([], pos))
  | tx_count + 1, pos =>
    match txLen data pos with
    | none => pure none
    | some len => do
      let tx ← slice data pos (pos + len)
      let rest ← readTxs data tx_count (pos + len)
      pure (rest.map fun (txs, pos) => (tx :: txs, pos))

/-- One entry; `none` when the loop over the entries ends here. -/
def readEntry (data : Bytes) (pos : ℕ) : Checked (Option (Entry × ℕ)) :=
  match readU64 data pos with
  | none => pure none
  | some (num_hashes, pos) =>
    match getArr 32 data pos with
    | none => pure none
    | some hash =>
      match readU64 data (pos + 32) with
      | none => pure none
      | some (tx_count, pos) =>
        if tx_count ≤ 100000 then do
          let txs ← readTxs data tx_count.toNat pos
          pure (txs.map fun (transactions, pos) =>
            ({ num_hashes := num_hashes, hash := hash, transactions := transactions }, pos))
        else pure none

/-- At most `num_entries` entries. -/
def readEntries (data : Bytes) : ℕ → ℕ → Checked (List Entry)
  | 0, _ => pure []
  | num_entries + 1, pos => do
    let entry ← readEntry data pos
    match entry with
    | none => pure []
    | some (entry, pos) => do
      let rest ← readEntries data num_entries pos
      pure (entry :: rest)

def deshredIntoTxs (data_payloads : List Bytes) : Checked (Option DeshredResult) :=
  let all_data := data_payloads.flatten
  if all_data.length < 8 then pure none
  else
    match readU64 all_data 0 with
    | none => pure none
    | some (num_entries, pos) =>
      if num_entries > 1000000 then pure none
      else do
        let entries ← readEntries all_data num_entries.toNat pos
        if entries.isEmpty then pure none
        else
          pure (some {
            entries := entries
            transactions := entries.flatMap Entry.transactions })

/-- What a deshredding that gives a block has gone through. -/
theorem deshredIntoTxs_cases {data_payloads : List Bytes} {result : DeshredResult}
    (h : deshredIntoTxs data_payloads = .ok (some result)) :
    ∃ num_entries pos, readU64 data_payloads.flatten 0 = some (num_entries, pos) ∧
      num_entries ≤ 1000000 ∧
      readEntries data_payloads.flatten num_entries.toNat pos = .ok result.entries ∧
      result.entries ≠ [] ∧
      result.transactions = result.entries.flatMap Entry.transactions := by
  simp only [deshredIntoTxs] at h
  split_ifs at h with hshort
  · cases h
  cases hnum : readU64 data_payloads.flatten 0 with
  | none =>
    rw [hnum] at h
    cases h
  | some read =>
    obtain ⟨num_entries, pos⟩ := read
    simp only [hnum] at h
    split_ifs at h with hmany
    · cases h
    -- the transactions are collected from the entries at the end
    obtain ⟨entries, hentries, h⟩ := bind_eq_ok.mp h
    split_ifs at h with hempty
    · cases h
    · cases h
      exact ⟨num_entries, pos, rfl, UInt64.not_lt.mp hmany, hentries, by simpa using hempty, rfl⟩

/-- The transactions of a block are those of its entries. -/
theorem transactions_of_deshred {data_payloads : List Bytes} {result : DeshredResult}
    (h : deshredIntoTxs data_payloads = .ok (some result)) :
    result.transactions = result.entries.flatMap Entry.transactions := by
  obtain ⟨num_entries, pos, -, -, -, -, htxs⟩ := deshredIntoTxs_cases h
  exact htxs

/-! ### Deshredding does not panic -/

theorem le_readShortu16From {data : Bytes} {shifts : List UInt16} {pos pos' : ℕ}
    {value value' : UInt16}
    (h : readShortu16From data shifts pos value = some (value', pos')) : pos ≤ pos' := by
  induction shifts generalizing pos value with
  | nil => cases h
  | cons shift shifts ih =>
    simp only [readShortu16From, Option.bind_eq_bind, Option.bind_eq_some_iff] at h
    obtain ⟨byte, -, h⟩ := h
    split_ifs at h with hlast
    · cases h
      exact Nat.le_succ pos
    · exact le_trans (Nat.le_succ pos) (ih h)

theorem le_readShortu16 {data : Bytes} {pos pos' : ℕ} {value : UInt16}
    (h : readShortu16 data pos = some (value, pos')) : pos ≤ pos' :=
  le_readShortu16From h

theorem le_skipRecords {fixed count p p' : ℕ} {data : Bytes}
    (h : skipRecords fixed data count p = some p') : p ≤ p' := by
  induction count generalizing p with
  | zero =>
    cases h
    exact le_rfl
  | succ count ih =>
    simp only [skipRecords, Option.bind_eq_bind, Option.bind_eq_some_iff, Prod.exists] at h
    obtain ⟨first_len, p₁, hfirst, second_len, p₂, hsecond, h⟩ := h
    have h₁ := le_readShortu16 hfirst
    have h₂ := le_readShortu16 hsecond
    have h₃ := ih h
    omega

/-- A transaction lies inside the data. -/
theorem add_txLen_le {data : Bytes} {start len : ℕ} (h : txLen data start = some len) :
    start + len ≤ data.length := by
  simp only [txLen, Option.bind_eq_bind, Option.bind_eq_some_iff, Prod.exists] at h
  obtain ⟨sig_count, p₁, hsigs, first, -, num_accounts, p₂, haccounts, num_ixs, p₃, hixs,
    p₄, hskip, p₅, hlookups, h⟩ := h
  have h₁ := le_readShortu16 hsigs
  have h₂ := le_readShortu16 haccounts
  have h₃ := le_readShortu16 hixs
  have h₄ := le_skipRecords hskip
  -- the lookups of a versioned transaction
  have h₅ : p₄ ≤ p₅ := by
    split_ifs at hlookups with hversioned
    · obtain ⟨⟨num_lookups, p⟩, hcount, hlookups⟩ := Option.bind_eq_some_iff.mp hlookups
      exact le_trans (le_readShortu16 hcount) (le_skipRecords hlookups)
    · cases hlookups
      exact le_rfl
  have hversion : p₁ + sig_count.toNat * 64 ≤ if decide (first &&& 0x80 ≠ 0) = true then
      p₁ + sig_count.toNat * 64 + 1 else p₁ + sig_count.toNat * 64 := by
    split_ifs <;> omega
  split_ifs at h with hlong
  cases h
  omega

theorem readTxs_returns (data : Bytes) (tx_count pos : ℕ) :
    Returns (readTxs data tx_count pos) := by
  induction tx_count generalizing pos with
  | zero => exact returns_ok _
  | succ tx_count ih =>
    rw [readTxs]
    cases hlen : txLen data pos with
    | none => exact returns_ok _
    | some len =>
      obtain ⟨rest, hrest⟩ := ih (pos + len)
      simp only [slice_of_le (Nat.le_add_right pos len) (add_txLen_le hlen), ok_bind, hrest]
      exact returns_ok _

theorem readEntry_returns (data : Bytes) (pos : ℕ) : Returns (readEntry data pos) := by
  unfold readEntry
  split
  · exact returns_ok _
  split
  · exact returns_ok _
  split
  · exact returns_ok _
  split
  · obtain ⟨txs, htxs⟩ := readTxs_returns data _ _
    rw [htxs]
    exact returns_ok _
  · exact returns_ok _

theorem readEntries_returns (data : Bytes) (num_entries pos : ℕ) :
    Returns (readEntries data num_entries pos) := by
  induction num_entries generalizing pos with
  | zero => exact returns_ok _
  | succ num_entries ih =>
    obtain ⟨entry, hentry⟩ := readEntry_returns data pos
    rw [readEntries, hentry, ok_bind]
    cases entry with
    | none => exact returns_ok _
    | some entry =>
      obtain ⟨rest, hrest⟩ := ih entry.2
      simp only [hrest, ok_bind]
      exact returns_ok _

/-- Whatever the payloads are, cutting them up does not panic. -/
theorem deshredIntoTxs_returns (data_payloads : List Bytes) :
    Returns (deshredIntoTxs data_payloads) := by
  simp only [deshredIntoTxs]
  split_ifs
  · exact returns_ok _
  split
  · exact returns_ok _
  · split_ifs
    · exact returns_ok _
    obtain ⟨entries, hentries⟩ := readEntries_returns data_payloads.flatten _ _
    rw [hentries, ok_bind]
    split_ifs
    · exact returns_ok _
    · exact returns_ok _

end Sg32
