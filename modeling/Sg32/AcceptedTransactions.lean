/-
What the length parser accepts (`tx_len` in `deshredder.rs`).

`txLen` reads counts with `readShortu16`, which also takes prefixes that no
encoder writes: longer ones than needed, and third bytes whose high bits fall
off.  What it accepts is a transaction when none of its counts is of this kind.

* `canonicalCount_iff` — the canonical prefixes are those that `encodeLen` writes;
* `exists_transaction` — with canonical counts the bytes are a transaction's;
* `canonicalAt_of_bytes` — and a transaction's counts are canonical;
* `txLen_isTransaction_iff` — accepted bytes are a transaction's exactly then.
-/
import Sg32.EntryStream

namespace Sg32

open Rust Bytes ShortVec

/-! ### Counts -/

/-- The bytes start with a count in its shortest form that fits 16 bits. -/
def canonicalCount : Bytes → Bool
  | [] => false
  | a :: tail =>
    if a.toNat < 128 then true
    else match tail with
      | [] => false
      | b :: tail =>
        if b.toNat < 128 then b.toNat ≠ 0
        else match tail with
          | [] => false
          | c :: _ => c.toNat ≠ 0 ∧ c.toNat ≤ 3

theorem canonicalCount_encodeLen {n : ℕ} (hn : n ≤ 65535) (rest : Bytes) :
    canonicalCount (encodeLen n ++ rest) = true := by
  rcases Nat.lt_or_ge n 128 with h1 | h1
  · rw [encodeLen_one h1, List.singleton_append, canonicalCount.eq_def]
    dsimp only
    rw [UInt8.toNat_ofNat', if_pos (by omega)]
  rcases Nat.lt_or_ge n 16384 with h2 | h2
  · simp only [encodeLen_two h1 h2, List.cons_append, canonicalCount, UInt8.toNat_ofNat']
    rw [if_neg (by omega), if_pos (by omega), decide_eq_true_iff]
    omega
  · simp only [encodeLen_three h2 (by omega), List.cons_append, canonicalCount, UInt8.toNat_ofNat']
    rw [if_neg (by omega), if_neg (by omega), decide_eq_true_iff]
    omega

theorem exists_of_canonicalCount {bytes : Bytes} (h : canonicalCount bytes = true) :
    ∃ n ≤ 65535, ∃ rest, bytes = encodeLen n ++ rest := by
  have hofNat : ∀ (a : UInt8) (n : ℕ), n = a.toNat → UInt8.ofNat n = a := by
    rintro a n rfl
    exact a.ofNat_toNat
  rcases bytes with _ | ⟨a, tail⟩
  · cases h
  have hlt := a.toNat_lt
  rw [canonicalCount.eq_def] at h
  dsimp only at h
  split_ifs at h with ha
  · exact ⟨a.toNat, by omega, tail, by rw [encodeLen_one ha, a.ofNat_toNat]; rfl⟩
  rcases tail with _ | ⟨b, tail⟩
  · cases h
  have hlt' := b.toNat_lt
  dsimp only at h
  split_ifs at h with hb
  · -- two bytes, the second is not zero
    rw [decide_eq_true_iff] at h
    refine ⟨a.toNat - 128 + b.toNat * 128, by omega, tail, ?_⟩
    rw [encodeLen_two (by omega) (by omega), hofNat a _ (by omega), hofNat b _ (by omega)]
    rfl
  rcases tail with _ | ⟨c, tail⟩
  · cases h
  dsimp only at h
  rw [decide_eq_true_iff] at h
  -- three bytes, the last is at most 3
  refine ⟨a.toNat - 128 + (b.toNat - 128) * 128 + c.toNat * 16384, by omega, tail, ?_⟩
  rw [encodeLen_three (by omega) (by omega), hofNat a _ (by omega), hofNat b _ (by omega),
    hofNat c _ (by omega)]
  rfl

/-- The canonical counts are the ones that are written. -/
theorem canonicalCount_iff {bytes : Bytes} :
    canonicalCount bytes = true ↔ ∃ n ≤ 65535, ∃ rest, bytes = encodeLen n ++ rest := by
  refine ⟨exists_of_canonicalCount, ?_⟩
  rintro ⟨n, hn, rest, rfl⟩
  exact canonicalCount_encodeLen hn rest

/-- There is a canonical count at this place. -/
def CanonicalAt (data : Bytes) (p : ℕ) : Prop := canonicalCount (data.drop p) = true

instance (data : Bytes) (p : ℕ) : Decidable (CanonicalAt data p) :=
  inferInstanceAs (Decidable (_ = true))

/-- Read a count of `w`-byte items, and go on behind the items. -/
def countThen (data : Bytes) (p w : ℕ) (next : UInt16 → ℕ → List ℕ) : List ℕ :=
  p :: match readShortu16 data p with
    | some (n, q) => next n (q + n.toNat * w)
    | none => []

/-- The places of the two counts of each record. -/
def recordPlaces (fixed : ℕ) (data : Bytes) : ℕ → ℕ → List ℕ
  | 0, _ => []
  | count + 1, p =>
    countThen data (p + fixed) 1 fun _ p =>
      countThen data p 1 fun _ p => recordPlaces fixed data count p

/-- The places where `txLen` reads a count. -/
def countPlaces (data : Bytes) (start : ℕ) : List ℕ :=
  countThen data start 64 fun _ p =>
    match data[p]? with
    | none => []
    | some first =>
      let versioned : Bool := first &&& 0x80 ≠ 0
      let p := if versioned then p + 1 else p
      countThen data (p + 3) 32 fun _ p =>
        countThen data (p + 32) 0 fun num_ixs p =>
          recordPlaces 1 data num_ixs.toNat p ++
            match skipInstructions data num_ixs.toNat p with
            | none => []
            | some p =>
              if versioned then
                countThen data p 0 fun num_lookups p => recordPlaces 32 data num_lookups.toNat p
              else []

theorem forall_mem_countThen {data : Bytes} {p w : ℕ} {next : UInt16 → ℕ → List ℕ}
    {P : ℕ → Prop} :
    (∀ r ∈ countThen data p w next, P r) ↔
      P p ∧ ∀ n q, readShortu16 data p = some (n, q) → ∀ r ∈ next n (q + n.toNat * w), P r := by
  rw [countThen, List.forall_mem_cons]
  refine and_congr_right fun _ => ?_
  rcases readShortu16 data p with _ | ⟨n, q⟩
  · simp
  · constructor
    · intro h n' q' heq
      cases heq
      exact h
    · intro h
      exact h n q rfl

/-! ### Accepted bytes with canonical counts -/

section Accepted

variable {data : Bytes} {p q w : ℕ} {n : UInt16}

/-- A canonical count is one that was written. -/
theorem between_count (hread : readShortu16 data p = some (n, q)) (h : CanonicalAt data p) :
    Between data p q (encodeLen n.toNat) := by
  obtain ⟨m, hm, rest, hdrop⟩ := canonicalCount_iff.mp h
  obtain ⟨n', hread', rfl⟩ := readShortu16_encodeLen hdrop hm
  rw [hread] at hread'
  cases hread'
  exact between_of_drop hdrop

theorem exists_vector (h : p + w ≤ data.length) :
    ∃ v : Vector UInt8 w, Between data p (p + w) v.toList := by
  obtain ⟨bytes, hbytes⟩ := exists_between (Nat.le_add_right p w) h
  have hlen : bytes.length = w := by
    have hend := hbytes.2
    omega
  exact ⟨⟨⟨bytes⟩, hlen⟩, hbytes⟩

theorem exists_vectors {count : ℕ} (h : p + count * w ≤ data.length) :
    ∃ xs : List (Vector UInt8 w), xs.length = count ∧
      Between data p (p + count * w) (xs.flatMap Vector.toList) := by
  induction count generalizing p with
  | zero =>
    rw [Nat.zero_mul]
    exact ⟨[], rfl, between_nil data p⟩
  | succ count ih =>
    have hend : p + (count + 1) * w = p + w + count * w := by ring
    rw [hend] at h ⊢
    obtain ⟨x, hx⟩ := exists_vector (w := w) (Nat.le_of_add_right_le h)
    obtain ⟨xs, rfl, hxs⟩ := ih h
    exact ⟨x :: xs, rfl, hx.append hxs⟩

/-- As many items as a canonical count says are a list with its length. -/
theorem exists_counted {α : Type} {item : α → Bytes} {xs : List α} {r : ℕ}
    (hread : readShortu16 data p = some (n, q)) (h : CanonicalAt data p)
    (hlen : xs.length = n.toNat) (hxs : Between data q r (xs.flatMap item)) :
    ∃ list : ShortList α, Between data p r (list.bytes item) := by
  have hcount := between_count hread h
  rw [← hlen] at hcount
  exact ⟨⟨xs, hlen ▸ Nat.le_of_lt_succ n.toNat_lt⟩, hcount.append hxs⟩

/-- A list of `w`-byte items. -/
theorem exists_shortList (hread : readShortu16 data p = some (n, q)) (h : CanonicalAt data p)
    (hle : q + n.toNat * w ≤ data.length) :
    ∃ list : ShortList (Vector UInt8 w),
      Between data p (q + n.toNat * w) (list.bytes Vector.toList) := by
  obtain ⟨xs, hlen, hxs⟩ := exists_vectors hle
  exact exists_counted hread h hlen hxs

theorem exists_blob (hread : readShortu16 data p = some (n, q)) (h : CanonicalAt data p)
    (hle : q + n.toNat ≤ data.length) :
    ∃ blob : ShortList UInt8, Between data p (q + n.toNat) blob.blob := by
  obtain ⟨bytes, hbytes⟩ := exists_between (Nat.le_add_right q n.toNat) hle
  have hlen : bytes.length = n.toNat := by
    have hend := hbytes.2
    omega
  have hcount := between_count hread h
  rw [← hlen] at hcount
  exact ⟨⟨bytes, hlen ▸ Nat.le_of_lt_succ n.toNat_lt⟩, hcount.append hbytes⟩

/-- Records of any type with the bytes of a front and two byte strings. -/
theorem exists_records {α : Type} {item : α → Bytes} {fixed count : ℕ}
    (hitem : ∀ (front : Vector UInt8 fixed) (first second : ShortList UInt8),
      ∃ x, item x = front.toList ++ (first.blob ++ second.blob))
    (hskip : skipRecords fixed data count p = some q) (hle : q ≤ data.length)
    (h : ∀ r ∈ recordPlaces fixed data count p, CanonicalAt data r) :
    ∃ xs : List α, xs.length = count ∧ Between data p q (xs.flatMap item) := by
  induction count generalizing p with
  | zero =>
    cases hskip
    exact ⟨[], rfl, between_nil data q⟩
  | succ count ih =>
    simp only [skipRecords, Option.bind_eq_bind, Option.bind_eq_some_iff, Prod.exists] at hskip
    obtain ⟨first_len, p₁, hfirst, second_len, p₂, hsecond, hskip⟩ := hskip
    rw [recordPlaces, forall_mem_countThen] at h
    have hsecond' := h.2 first_len p₁ hfirst
    rw [Nat.mul_one, forall_mem_countThen] at hsecond'
    have hrest := hsecond'.2 second_len p₂ hsecond
    rw [Nat.mul_one] at hrest
    have h₁ := le_readShortu16 hfirst
    have h₂ := le_readShortu16 hsecond
    have h₃ := le_skipRecords hskip
    have hfit : p + fixed ≤ data.length := by omega
    obtain ⟨front, hfront⟩ := exists_vector hfit
    obtain ⟨first, hblob⟩ := exists_blob hfirst h.1 (by omega)
    obtain ⟨second, hblob'⟩ := exists_blob hsecond hsecond'.1 (by omega)
    obtain ⟨x, hx⟩ := hitem front first second
    obtain ⟨xs, rfl, hxs⟩ := ih hskip hrest
    refine ⟨x :: xs, rfl, ?_⟩
    rw [List.flatMap_cons, hx]
    exact (hfront.append (hblob.append hblob')).append hxs

theorem exists_instructions {count : ℕ} (hskip : skipInstructions data count p = some q)
    (hle : q ≤ data.length) (h : ∀ r ∈ recordPlaces 1 data count p, CanonicalAt data r) :
    ∃ xs : List Instruction, xs.length = count ∧
      Between data p q (xs.flatMap Instruction.bytes) := by
  refine exists_records (fun front first second => ?_) hskip hle h
  obtain ⟨b, hb⟩ := List.length_eq_one_iff.mp front.length_toList
  refine ⟨⟨b, first, second⟩, ?_⟩
  rw [Instruction.bytes, hb]

theorem exists_lookups {count : ℕ} (hskip : skipLookups data count p = some q)
    (hle : q ≤ data.length) (h : ∀ r ∈ recordPlaces 32 data count p, CanonicalAt data r) :
    ∃ xs : List AddressTableLookup, xs.length = count ∧
      Between data p q (xs.flatMap AddressTableLookup.bytes) :=
  exists_records (fun front first second => ⟨⟨front, first, second⟩, rfl⟩) hskip hle h

/-- The bytes of the lookups, when there are any. -/
def lookupBytes : Option (ShortList AddressTableLookup) → Bytes
  | none => []
  | some lookups => lookups.bytes AddressTableLookup.bytes

theorem MessageStart.back_eq (start : MessageStart) :
    start.back = lookupBytes start.addressTableLookups := by
  cases start <;> rfl

/-- The bytes from a known first one on. -/
theorem exists_front {first : UInt8} (hfirst : data[p]? = some first)
    (hle : p + (w + 1) ≤ data.length) :
    ∃ tail : Bytes, tail.length = w ∧ Between data p (p + (w + 1)) (first :: tail) := by
  obtain ⟨v, hv⟩ := exists_vector hle
  obtain ⟨x, tail, hbytes⟩ := List.exists_cons_of_length_eq_add_one v.length_toList
  have hlen := v.length_toList
  rw [hbytes] at hv hlen
  have hx := getElem?_of_drop hv.1
  rw [hfirst] at hx
  cases hx
  exact ⟨tail, Nat.succ.inj hlen, hv⟩

/-- A message start with these lookups, and the rest of the header. -/
theorem exists_messageStart {first : UInt8} {lookups : Option (ShortList AddressTableLookup)}
    (hfirst : data[p]? = some first)
    (hversioned : decide (first &&& 0x80 ≠ 0) = lookups.isSome)
    (hle : (if lookups.isSome then p + 1 else p) + 3 ≤ data.length) :
    ∃ start : MessageStart, start.addressTableLookups = lookups ∧ ∃ a b,
      Between data p ((if lookups.isSome then p + 1 else p) + 3) (start.front ++ [a, b]) := by
  have hbit := high_bit first.toNat_lt
  rw [first.ofNat_toNat] at hbit
  rcases lookups with _ | lookups
  · -- a legacy message: its first byte has no high bit
    have hlt : first.toNat < 128 := hbit.mp (by simpa using hversioned)
    obtain ⟨tail, hlen, hbytes⟩ := exists_front (w := 2) hfirst hle
    obtain ⟨a, b, rfl⟩ := List.length_eq_two.mp hlen
    exact ⟨.legacy first hlt, rfl, a, b, hbytes⟩
  · -- a versioned message: the high bit is taken off the first byte
    have hge : ¬ first.toNat < 128 := fun hlt => by simp [hbit.mpr hlt] at hversioned
    obtain ⟨tail, hlen, hbytes⟩ := exists_front (w := 3) hfirst hle
    obtain ⟨n, a, b, rfl⟩ := List.length_eq_three.mp hlen
    have hall : ∀ i : Fin 256, ¬ i.val < 128 → ((UInt8.ofNat i) &&& 0x7f).toNat < 128 ∧
        0x80 ||| ((UInt8.ofNat i) &&& 0x7f) = UInt8.ofNat i := by decide +kernel
    obtain ⟨hlt, hor⟩ := hall ⟨first.toNat, first.toNat_lt⟩ hge
    rw [first.ofNat_toNat] at hlt hor
    refine ⟨.versioned (first &&& 0x7f) hlt n lookups, rfl, a, b, ?_⟩
    rw [MessageStart.front, hor]
    exact hbytes

/-- The lookups that `txLen` steps over. -/
theorem exists_lookupBytes {versioned : Bool}
    (hskip : (if versioned then do
        let (num_lookups, p) ← readShortu16 data p
        skipLookups data num_lookups.toNat p
      else some p) = some q)
    (hle : q ≤ data.length)
    (h : ∀ r ∈ (if versioned then
        countThen data p 0 fun num_lookups p => recordPlaces 32 data num_lookups.toNat p
      else []), CanonicalAt data r) :
    ∃ lookups : Option (ShortList AddressTableLookup),
      versioned = lookups.isSome ∧ Between data p q (lookupBytes lookups) := by
  cases versioned with
  | false =>
    cases hskip
    exact ⟨none, rfl, between_nil data p⟩
  | true =>
    obtain ⟨⟨num_lookups, p₁⟩, hcount, hskip⟩ := Option.bind_eq_some_iff.mp hskip
    rw [if_pos rfl, forall_mem_countThen] at h
    obtain ⟨xs, hlen, hxs⟩ := exists_lookups hskip hle (by simpa using h.2 num_lookups p₁ hcount)
    obtain ⟨lookups, hlookups⟩ := exists_counted hcount h.1 hlen hxs
    exact ⟨some lookups, rfl, hlookups⟩

/-- Accepted bytes whose counts are canonical are those of a transaction. -/
theorem exists_transaction {start len : ℕ} (hlen : txLen data start = some len)
    (h : ∀ p ∈ countPlaces data start, CanonicalAt data p) :
    ∃ tx : Transaction, Between data start (start + len) tx.bytes := by
  have hfits := add_txLen_le hlen
  simp only [txLen, Option.bind_eq_bind, Option.bind_eq_some_iff, Prod.exists] at hlen
  obtain ⟨sig_count, p₁, hsigs, first, hfirst, num_accounts, p₂, haccounts, num_ixs, p₃, hixs,
    p₄, hskip, p₅, hlookups, hlen⟩ := hlen
  split_ifs at hlen with hlong
  cases hlen
  -- the places of the counts, one after the other
  rw [countPlaces, forall_mem_countThen] at h
  obtain ⟨hsigs', h⟩ := h
  replace h := h sig_count p₁ hsigs
  rw [hfirst] at h
  dsimp only at h
  generalize hversioned : decide (first &&& 0x80 ≠ 0) = versioned at h haccounts hlookups
  rw [forall_mem_countThen] at h
  obtain ⟨haccounts', h⟩ := h
  replace h := h num_accounts p₂ haccounts
  rw [forall_mem_countThen] at h
  obtain ⟨hixs', h⟩ := h
  replace h := h num_ixs p₃ hixs
  rw [Nat.mul_zero, Nat.add_zero, hskip, List.forall_mem_append] at h
  -- the parts of the transaction, from the back where the cursor is known to fit
  obtain ⟨lookups, rfl, hback⟩ := exists_lookupBytes hlookups (Nat.not_lt.mp hlong) h.2
  have hle₁ := le_readShortu16 hsigs
  have hle₂ := le_readShortu16 haccounts
  have hle₃ := le_readShortu16 hixs
  have hle₄ := le_skipRecords hskip
  have hle₅ := hback.2
  have hversion : p₁ + sig_count.toNat * 64 ≤ if lookups.isSome then
      p₁ + sig_count.toNat * 64 + 1 else p₁ + sig_count.toNat * 64 := by
    split_ifs <;> omega
  obtain ⟨xs, hcount, hxs⟩ := exists_instructions hskip (by omega) h.1
  obtain ⟨instructions, hinstructions⟩ := exists_counted hixs hixs' hcount hxs
  have hroom : p₂ + num_accounts.toNat * 32 + 32 ≤ data.length := by omega
  obtain ⟨recent_blockhash, hhash⟩ := exists_vector hroom
  obtain ⟨account_keys, hkeys⟩ := exists_shortList (w := 32) haccounts haccounts' (by omega)
  obtain ⟨first_part, hstart, a, b, hheader⟩ :=
    exists_messageStart hfirst hversioned (by omega)
  obtain ⟨signatures, hsignatures⟩ := exists_shortList (w := 64) hsigs hsigs' (by omega)
  refine ⟨⟨signatures, first_part, a, b, account_keys, recent_blockhash, instructions⟩, ?_⟩
  have hbytes := hsignatures.append (hheader.append (hkeys.append (hhash.append
    (hinstructions.append hback))))
  rw [Nat.add_sub_cancel' (by omega)]
  rw [← hstart, ← first_part.back_eq, List.append_assoc] at hbytes
  exact hbytes

end Accepted

/-! ### The counts of a transaction -/

section Written

variable {data rest : Bytes} {p w n : ℕ}

theorem ShortList.bytes_append {α : Type} (list : ShortList α) {item : α → Bytes} :
    list.bytes item ++ rest = encodeLen list.items.length ++ (list.items.flatMap item ++ rest) := by
  rw [ShortList.bytes, List.append_assoc]

/-- A written count is canonical, and the cursor goes on behind its items. -/
theorem canonicalAt_countThen {next : UInt16 → ℕ → List ℕ} (h : data.drop p = encodeLen n ++ rest)
    (hn : n ≤ 65535)
    (hnext : ∀ v : UInt16, v.toNat = n →
      ∀ r ∈ next v (p + (encodeLen n).length + n * w), CanonicalAt data r) :
    ∀ r ∈ countThen data p w next, CanonicalAt data r := by
  rw [forall_mem_countThen]
  refine ⟨canonicalCount_iff.mpr ⟨n, hn, rest, h⟩, ?_⟩
  intro v q hread
  obtain ⟨v', hread', rfl⟩ := readShortu16_encodeLen h hn
  rw [hread'] at hread
  cases hread
  exact hnext v rfl

theorem canonicalAt_blob {next : UInt16 → ℕ → List ℕ} (blob : ShortList UInt8)
    (h : data.drop p = blob.blob ++ rest)
    (hnext : ∀ v, ∀ r ∈ next v (p + blob.blob.length), CanonicalAt data r) :
    ∀ r ∈ countThen data p 1 next, CanonicalAt data r := by
  rw [ShortList.blob, List.append_assoc] at h
  refine canonicalAt_countThen h blob.length_le fun v _ => ?_
  have hend := hnext v
  rw [ShortList.blob, List.length_append, ← Nat.add_assoc] at hend
  rw [Nat.mul_one]
  exact hend

theorem canonicalAt_shortList {next : UInt16 → ℕ → List ℕ} (list : ShortList (Vector UInt8 w))
    (h : data.drop p = list.bytes Vector.toList ++ rest)
    (hnext : ∀ v, ∀ r ∈ next v (p + (list.bytes Vector.toList).length), CanonicalAt data r) :
    ∀ r ∈ countThen data p w next, CanonicalAt data r := by
  have hitems := length_flatMap_const (fun v : Vector UInt8 w => v.length_toList) list.items
  rw [list.bytes_append] at h
  refine canonicalAt_countThen h list.length_le fun v _ => ?_
  have hend := hnext v
  rw [ShortList.bytes, List.length_append, ← Nat.add_assoc, hitems] at hend
  exact hend

theorem canonicalAt_records {α : Type} {item : α → Bytes} {fixed : ℕ}
    (hitem : ∀ x, ∃ (front : Bytes) (first second : ShortList UInt8),
      front.length = fixed ∧ item x = front ++ (first.blob ++ second.blob))
    (xs : List α) (h : data.drop p = xs.flatMap item ++ rest) :
    ∀ r ∈ recordPlaces fixed data xs.length p, CanonicalAt data r := by
  induction xs generalizing p with
  | nil =>
    intro r hr
    cases hr
  | cons x xs ih =>
    obtain ⟨front, first, second, rfl, hx⟩ := hitem x
    rw [List.flatMap_cons, hx, List.append_assoc, List.append_assoc, List.append_assoc] at h
    have hfirst := drop_add_of_drop h
    have hsecond := drop_add_of_drop hfirst
    refine canonicalAt_blob first hfirst fun _ => ?_
    refine canonicalAt_blob second hsecond fun _ => ?_
    exact ih (drop_add_of_drop hsecond)

theorem canonicalAt_back (start : MessageStart) (h : data.drop p = start.back ++ rest) :
    ∀ r ∈ (if start.addressTableLookups.isSome then
        countThen data p 0 fun num_lookups p => recordPlaces 32 data num_lookups.toNat p
      else []), CanonicalAt data r := by
  rcases start with ⟨num_required_signatures, lt⟩ |
    ⟨version, lt, num_required_signatures, lookups⟩
  · intro r hr
    cases hr
  · have hdrop : data.drop p = lookups.bytes AddressTableLookup.bytes ++ rest := h
    rw [lookups.bytes_append] at hdrop
    rw [MessageStart.addressTableLookups, Option.isSome_some, if_pos rfl]
    refine canonicalAt_countThen hdrop lookups.length_le fun num_lookups hcount => ?_
    rw [Nat.mul_zero, Nat.add_zero, hcount]
    exact canonicalAt_records (fun lookup => ⟨lookup.account_key.toList, lookup.writable_indexes,
      lookup.readonly_indexes, by simp, rfl⟩) lookups.items (drop_add_of_drop hdrop)

/-- The counts of a transaction are canonical. -/
theorem canonicalAt_of_bytes (tx : Transaction) (h : data.drop p = tx.bytes ++ rest) :
    ∀ r ∈ countPlaces data p, CanonicalAt data r := by
  simp only [Transaction.bytes, List.append_assoc] at h
  have hstart := drop_add_of_drop h
  obtain ⟨first, hfirst, hversioned⟩ := tx.start.front_spec hstart
  have haccounts : data.drop (_ + 2) = _ := drop_add_of_drop (drop_add_of_drop hstart)
  have hhash := drop_add_of_drop haccounts
  have hixs := drop_add_of_drop hhash
  refine canonicalAt_shortList tx.signatures h fun _ => ?_
  rw [hfirst]
  dsimp only
  rw [hversioned, tx.start.header_end]
  refine canonicalAt_shortList tx.account_keys haccounts fun _ => ?_
  rw [tx.instructions.bytes_append, Vector.length_toList] at hixs
  refine canonicalAt_countThen hixs tx.instructions.length_le fun num_ixs hcount => ?_
  have hitems := drop_add_of_drop hixs
  rw [Nat.mul_zero, Nat.add_zero, hcount, skipInstructions_flatMap _ hitems,
    List.forall_mem_append]
  refine ⟨canonicalAt_records (fun ix => ⟨[ix.program_id_index], ix.accounts, ix.data, rfl, rfl⟩)
    tx.instructions.items hitems, ?_⟩
  exact canonicalAt_back tx.start (drop_add_of_drop hitems)

end Written

/-! ### Accepted transactions -/

section Slices

variable {data bytes : Bytes} {start len : ℕ}

theorem slice_of_between (h : Between data start (start + len) bytes)
    (hle : start + len ≤ data.length) : slice data start (start + len) = .ok bytes := by
  rw [slice_of_le (Nat.le_add_right start len) hle, h.1, Nat.add_sub_cancel_left]
  rw [← Nat.add_left_cancel h.2, List.take_left]

theorem drop_of_slice (h : slice data start (start + len) = .ok bytes) :
    data.drop start = bytes ++ data.drop (start + len) := by
  rw [slice] at h
  split_ifs at h with hle
  cases h
  rw [Nat.add_sub_cancel_left, ← List.drop_drop, List.take_append_drop]

/-- **What `txLen` accepts is a transaction exactly if its counts are canonical**:
a two-byte count does not end in zero, a three-byte one ends in 1, 2 or 3. -/
theorem txLen_isTransaction_iff (h : txLen data start = some len) :
    (∃ tx : Transaction, slice data start (start + len) = .ok tx.bytes) ↔
      ∀ p ∈ countPlaces data start, CanonicalAt data p := by
  constructor
  · rintro ⟨tx, htx⟩
    exact canonicalAt_of_bytes tx (drop_of_slice htx)
  · intro hcanonical
    obtain ⟨tx, htx⟩ := exists_transaction h hcanonical
    exact ⟨tx, slice_of_between htx (add_txLen_le h)⟩

end Slices

theorem txLen_isTransaction_sample :
    (∃ tx : Transaction,
        slice (versionedSample.bytes ++ [255]) 0 (0 + versionedSample.bytes.length) =
          .ok tx.bytes) ↔
      ∀ p ∈ countPlaces (versionedSample.bytes ++ [255]) 0,
        CanonicalAt (versionedSample.bytes ++ [255]) p :=
  txLen_isTransaction_iff (txLen_bytes versionedSample rfl)

example : countPlaces versionedSample.bytes 0 = [0, 69, 166, 168, 170, 173, 206, 209] := by
  decide +kernel

/-- A transaction without signatures, accounts and instructions, whose first
count is a zero in two bytes. -/
def overlong : Bytes := [0x80, 0x00] ++ ([1, 0, 0] ++ ([0] ++ (List.replicate 32 0 ++ [0])))

theorem txLen_overlong :
    ¬ ∀ data start len, txLen data start = some len →
      ∃ tx : Transaction, slice data start (start + len) = .ok tx.bytes := by
  intro h
  obtain ⟨tx, htx⟩ := h overlong 0 39 (by decide +kernel)
  have hcanonical := canonicalAt_of_bytes tx (drop_of_slice htx) 0 List.mem_cons_self
  exact absurd hcanonical (by decide)

end Sg32
