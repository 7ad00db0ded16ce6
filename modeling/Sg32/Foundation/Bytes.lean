/-
Byte strings: ranges and little-endian numbers.

`getRange bytes a b` is the checked range `bytes.get(a..b)`; `leBytes w n`
writes `n` as `w` bytes, least significant first, and `leNat` reads them back.

* `getRange_append` — the middle of a concatenation is the range it occupies;
* `getRange_join` — two ranges side by side;
* `getRange_padded_iff` — reading behind zero padding at a fixed distance;
* `Stable` — a reader that more bytes do not make change its answer;
* `leNat_leBytes`, `leBytes_leNat` — writing and reading are inverse below
  `256 ^ w`.
-/
import Mathlib.Data.List.Basic
import Mathlib.Data.Nat.Basic
import Mathlib.Tactic.Common
import Mathlib.Tactic.Ring

/-- A string of bytes. -/
abbrev Bytes := List UInt8

namespace Bytes

variable {α : Type}

/-- `xs.get(a..b)`. -/
def getRange (xs : List α) (a b : ℕ) : Option (List α) :=
  if a ≤ b ∧ b ≤ xs.length then some ((xs.drop a).take (b - a)) else none

theorem getRange_eq_some {xs ys : List α} {a b : ℕ} :
    getRange xs a b = some ys ↔
      (a ≤ b ∧ b ≤ xs.length) ∧ (xs.drop a).take (b - a) = ys := by
  unfold getRange
  split_ifs with h <;> simp [h]

theorem getRange_of_le {xs : List α} {a b : ℕ} (hab : a ≤ b) (hb : b ≤ xs.length) :
    getRange xs a b = some ((xs.drop a).take (b - a)) := if_pos ⟨hab, hb⟩

theorem length_of_getRange {xs ys : List α} {a b : ℕ}
    (h : getRange xs a b = some ys) : ys.length = b - a := by
  obtain ⟨⟨hab, hb⟩, rfl⟩ := getRange_eq_some.mp h
  rw [List.length_take, List.length_drop]
  omega

/-- The part of a concatenation between two others. -/
theorem getRange_append {pre mid post : List α} {a b : ℕ} (ha : pre.length = a)
    (hb : a + mid.length = b) : getRange (pre ++ (mid ++ post)) a b = some mid := by
  subst ha hb
  rw [getRange_of_le (Nat.le_add_right _ _) (by simp), List.drop_left,
    Nat.add_sub_cancel_left, List.take_left]

theorem getRange_skip {xs ys : List α} {a b n : ℕ} (h : xs.length = n) :
    getRange (xs ++ ys) (n + a) (n + b) = getRange ys a b := by
  subst h
  unfold getRange
  rw [List.drop_length_add_append, List.length_append, Nat.add_sub_add_left]
  simp

/-- A range of a range. -/
theorem getRange_of_getRange {xs ys : List α} {a b : ℕ} (h : getRange xs a b = some ys) (c : ℕ)
    {d : ℕ} (hd : a + d ≤ b) : getRange ys c d = getRange xs (a + c) (a + d) := by
  have hlen := length_of_getRange h
  obtain ⟨⟨hab, hb⟩, htake⟩ := getRange_eq_some.mp h
  unfold getRange
  by_cases hcd : c ≤ d
  · rw [if_pos ⟨hcd, by omega⟩, if_pos ⟨by omega, by omega⟩, ← htake, Nat.add_sub_add_left,
      ← List.drop_drop, List.drop_take, List.take_take]
    congr 2
    omega
  · rw [if_neg (fun hle => hcd hle.1), if_neg (fun hle => hcd (Nat.le_of_add_le_add_left hle.1))]

theorem getRange_iff_getElem? {xs ys : List α} {a : ℕ} (h : a + ys.length ≤ xs.length) :
    getRange xs a (a + ys.length) = some ys ↔ ∀ i < ys.length, xs[a + i]? = ys[i]? := by
  rw [getRange_of_le (Nat.le_add_right _ _) h, Option.some.injEq, Nat.add_sub_cancel_left]
  constructor
  · intro heq i hi
    rw [← heq, List.getElem?_take_of_lt hi, List.getElem?_drop]
  · intro hget
    refine List.ext_getElem? ?_
    intro i
    by_cases hi : i < ys.length
    · rw [List.getElem?_take_of_lt hi, List.getElem?_drop, hget i hi]
    · rw [List.getElem?_eq_none (by simp; omega), List.getElem?_eq_none (by omega)]

/-- Two ranges side by side are one range. -/
theorem getRange_join {xs ys zs : List α} {a b c : ℕ} (hab : a ≤ b) (hbc : b ≤ c)
    (hys : ys.length = b - a) :
    getRange xs a c = some (ys ++ zs) ↔ getRange xs a b = some ys ∧ getRange xs b c = some zs := by
  rw [getRange_eq_some, getRange_eq_some, getRange_eq_some]
  have hsplit : (xs.drop a).take (c - a) =
      (xs.drop a).take (b - a) ++ (xs.drop b).take (c - b) := by
    have hc : c - a = (b - a) + (c - b) := by omega
    have hb : a + (b - a) = b := by omega
    rw [hc, List.take_add, List.drop_drop, hb]
  constructor
  · rintro ⟨⟨-, hlen⟩, heq⟩
    have htake : ((xs.drop a).take (b - a)).length = ys.length := by
      rw [List.length_take, List.length_drop, hys]
      omega
    obtain ⟨hy, hz⟩ := List.append_inj (hsplit ▸ heq) htake
    exact ⟨⟨⟨hab, by omega⟩, hy⟩, ⟨hbc, hlen⟩, hz⟩
  · rintro ⟨⟨-, hy⟩, ⟨-, hlen⟩, hz⟩
    exact ⟨⟨by omega, hlen⟩, by rw [hsplit, hy, hz]⟩

/-- `xs.get(a..a + N)?.try_into().ok()`, an array. -/
def getArr (N : ℕ) (xs : List α) (a : ℕ) : Option (Vector α N) := do
  let slice ← getRange xs a (a + N)
  if h : slice.length = N then some ⟨⟨slice⟩, h⟩ else none

theorem getArr_eq_some {N : ℕ} {xs : List α} {a : ℕ} {arr : Vector α N} :
    getArr N xs a = some arr ↔ getRange xs a (a + N) = some arr.toList := by
  rw [getArr]
  cases h : getRange xs a (a + N) with
  | none => simp
  | some slice =>
    have hlen : slice.length = N := by simpa using length_of_getRange h
    simp only [Option.bind_eq_bind, Option.bind_some, hlen, dite_true, Option.some.injEq]
    constructor
    · rintro rfl
      rfl
    · rintro rfl
      rfl

theorem getArr_eq_none {N : ℕ} {xs : List α} {a : ℕ} :
    getArr N xs a = none ↔ xs.length < a + N := by
  constructor
  · intro h
    by_contra hle
    have hrange := getRange_of_le (Nat.le_add_right a N) (Nat.not_lt.mp hle)
    have hlen := length_of_getRange hrange
    rw [Nat.add_sub_cancel_left] at hlen hrange
    simp only [getArr, hrange, Option.bind_eq_bind, Option.bind_some, dif_pos hlen] at h
    cases h
  · intro h
    rw [getArr, getRange, if_neg (by omega)]
    rfl

theorem getArr_append {N : ℕ} (pre post : List α) {arr : Vector α N} {a : ℕ}
    (h : pre.length = a) : getArr N (pre ++ (arr.toList ++ post)) a = some arr := by
  rw [getArr_eq_some, getRange_append h (by rw [Vector.length_toList])]

/-! ### At a cursor -/

section Cursor

variable {xs ys rest : List α} {pos : ℕ}

theorem drop_add_of_drop (h : xs.drop pos = ys ++ rest) : xs.drop (pos + ys.length) = rest := by
  rw [← List.drop_drop, h, List.drop_left]

theorem drop_succ_of_drop {y : α} (h : xs.drop pos = y :: rest) : xs.drop (pos + 1) = rest := by
  rw [← List.drop_drop, h]
  rfl

theorem add_le_of_drop (h : xs.drop pos = ys ++ rest) (hys : ys ≠ []) :
    pos + ys.length ≤ xs.length := by
  have hlen := congrArg List.length h
  have hpos := List.length_pos_iff.mpr hys
  rw [List.length_drop, List.length_append] at hlen
  omega

theorem getRange_of_drop (h : xs.drop pos = ys ++ rest) (hys : ys ≠ []) :
    getRange xs pos (pos + ys.length) = some ys := by
  rw [getRange_of_le (Nat.le_add_right _ _) (add_le_of_drop h hys), h, Nat.add_sub_cancel_left,
    List.take_left]

theorem getElem?_of_drop {y : α} (h : xs.drop pos = y :: rest) : xs[pos]? = some y := by
  have hget : (xs.drop pos)[0]? = some y := by rw [h]; rfl
  rwa [List.getElem?_drop, Nat.add_zero] at hget

/-- The bytes from one cursor to another. -/
def Between (xs : List α) (p q : ℕ) (ys : List α) : Prop :=
  xs.drop p = ys ++ xs.drop q ∧ p + ys.length = q

theorem between_nil (xs : List α) (p : ℕ) : Between xs p p [] := ⟨rfl, rfl⟩

theorem Between.append {zs : List α} {p q r : ℕ} (h : Between xs p q ys)
    (h' : Between xs q r zs) : Between xs p r (ys ++ zs) := by
  refine ⟨by rw [h.1, h'.1, List.append_assoc], ?_⟩
  rw [List.length_append, ← Nat.add_assoc, h.2, h'.2]

theorem between_of_drop (h : xs.drop pos = ys ++ rest) : Between xs pos (pos + ys.length) ys :=
  ⟨by rw [drop_add_of_drop h, h], rfl⟩

theorem exists_between {p q : ℕ} (hpq : p ≤ q) (hq : q ≤ xs.length) :
    ∃ ys, Between xs p q ys := by
  refine ⟨(xs.drop p).take (q - p), ?_, ?_⟩
  · rw [← Nat.add_sub_cancel' hpq, ← List.drop_drop, Nat.add_sub_cancel_left,
      List.take_append_drop]
  · rw [List.length_take, List.length_drop]
    omega

theorem getRange_iff_between {p q : ℕ} (hys : ys ≠ []) :
    getRange xs p q = some ys ↔ Between xs p q ys := by
  constructor
  · intro h
    have hlen := length_of_getRange h
    obtain ⟨⟨hpq, -⟩, htake⟩ := getRange_eq_some.mp h
    refine ⟨?_, by omega⟩
    rw [← htake, ← Nat.add_sub_cancel' hpq, ← List.drop_drop, Nat.add_sub_cancel_left,
      List.take_append_drop]
  · rintro ⟨hdrop, rfl⟩
    exact getRange_of_drop hdrop hys

/-- The bytes between two cursors stay there when more bytes follow. -/
theorem Between.of_prefix {zs : List α} {p q : ℕ} (h : Between xs p q ys) (hle : xs <+: zs) :
    Between zs p q ys := by
  obtain ⟨more, rfl⟩ := hle
  obtain ⟨hdrop, rfl⟩ := h
  rcases ys.eq_nil_or_concat with rfl | ⟨init, last, rfl⟩
  · exact between_nil _ p
  · have hle := add_le_of_drop hdrop (by simp)
    refine ⟨?_, rfl⟩
    rw [List.drop_append_of_le_length (by omega), hdrop, List.append_assoc,
      List.drop_append_of_le_length hle]

end Cursor

/-! ### Readers and longer inputs -/

section Stable

variable {β γ : Type}

/-- More bytes behind its input do not change what the reader has read. -/
def Stable (read : List α → Option β) : Prop :=
  ∀ ⦃xs ys⦄, xs <+: ys → ∀ b, read xs = some b → read ys = some b

theorem stable_const (b : Option β) : Stable fun _ : List α => b :=
  fun _ _ _ _ h => h

theorem Stable.bind {read : List α → Option β} {next : β → List α → Option γ}
    (hread : Stable read) (hnext : ∀ b, Stable (next b)) :
    Stable fun xs => read xs >>= fun b => next b xs := by
  intro xs ys hle c h
  obtain ⟨b, hb, hc⟩ := Option.bind_eq_some_iff.mp h
  exact Option.bind_eq_some_iff.mpr ⟨b, hread hle b hb, hnext b hle c hc⟩

theorem stable_getElem? (i : ℕ) : Stable fun xs : List α => xs[i]? := by
  intro xs ys hle x h
  obtain ⟨hlt, rfl⟩ := List.getElem?_eq_some_iff.mp h
  exact List.prefix_iff_getElem?.mp hle i hlt

/-- A reader that checks that its answer lies inside the input. -/
theorem stable_of_le (end_pos : ℕ) (b : β) :
    Stable fun xs : List α => if end_pos > xs.length then none else some b := by
  intro xs ys hle c h
  have hlen := hle.length_le
  dsimp only at h ⊢
  split_ifs at h with hlong
  rw [if_neg (by omega), h]

end Stable

/-! ### Looking behind the padding -/

/-- A field behind `pad` zeros, sought `off` bytes further on although `off`
bytes follow it: it is found in its place, or it is zero all over, or it
repeats itself into what follows it. -/
theorem getRange_padded_iff {field trailer : Bytes} {pad off : ℕ} (h : trailer.length = off) :
    getRange (List.replicate pad 0 ++ (field ++ trailer)) off (off + field.length) = some field ↔
      pad = off ∨ (off < pad ∧ ∀ b ∈ field, b = 0) ∨
        (pad < off ∧ ∀ i < field.length, (field ++ trailer)[i + (off - pad)]? = field[i]?) := by
  rw [getRange_iff_getElem? (by simp; omega)]
  -- the reads fall behind the field, on it, or on the padding before it
  rcases Nat.lt_trichotomy pad off with hlt | rfl | hlt
  · have hbehind : ∀ i, (List.replicate pad 0 ++ (field ++ trailer))[off + i]? =
        (field ++ trailer)[i + (off - pad)]? := by
      intro i
      rw [List.getElem?_append_right (by simp; omega), List.length_replicate]
      congr 1
      omega
    simp only [hbehind, hlt, hlt.ne, hlt.not_gt, false_and, true_and, false_or]
  · simp only [true_or, iff_true]
    intro i hi
    rw [List.getElem?_append_right (by simp), List.length_replicate, Nat.add_sub_cancel_left,
      List.getElem?_append_left hi]
  · simp only [hlt, hlt.ne', hlt.not_gt, false_and, true_and, false_or, or_false]
    constructor
    · intro hget
      -- the byte at `i` is a padding byte or the byte `pad - off` before it
      have hzero : ∀ i (hi : i < field.length), field[i] = 0 := by
        intro i
        induction i using Nat.strong_induction_on with
        | _ i ih =>
          intro hi
          have hi' := hget i hi
          rw [List.getElem?_eq_getElem hi] at hi'
          by_cases hpad : off + i < pad
          · rw [List.getElem?_append_left (by simpa using hpad)] at hi'
            simpa [hpad] using hi'.symm
          · rw [List.getElem?_append_right (by simpa using hpad), List.length_replicate,
              List.getElem?_append_left (by omega), List.getElem?_eq_getElem (by omega)] at hi'
            rw [← Option.some.inj hi']
            exact ih _ (by omega) (by omega)
      intro b hb
      obtain ⟨i, hi, rfl⟩ := List.getElem_of_mem hb
      exact hzero i hi
    · intro hzero i hi
      have hfield : field = List.replicate field.length 0 := List.eq_replicate_of_mem hzero
      rw [hfield, ← List.append_assoc, ← List.replicate_add,
        List.getElem?_append_left (by simp; omega)]
      have h1 : off + i < pad + field.length := by omega
      simp [h1, hi]

/-! ### Little-endian numbers -/

/-- The number whose base-256 digits, least significant first, are the bytes. -/
def leNat : Bytes → ℕ
  | [] => 0
  | b :: bs => b.toNat + 256 * leNat bs

/-- The `w` low bytes of a number, least significant first. -/
def leBytes : ℕ → ℕ → Bytes
  | 0, _ => []
  | w + 1, n => UInt8.ofNat n :: leBytes w (n / 256)

@[simp] theorem length_leBytes (w n : ℕ) : (leBytes w n).length = w := by
  induction w generalizing n with
  | zero => rfl
  | succ w ih => simp [leBytes, ih]

theorem leNat_lt (bs : Bytes) : leNat bs < 256 ^ bs.length := by
  induction bs with
  | nil => exact Nat.one_pos
  | cons b bs ih =>
    have hb := b.toNat_lt
    rw [leNat, List.length_cons, pow_succ]
    omega

theorem leBytes_leNat (bs : Bytes) : leBytes bs.length (leNat bs) = bs := by
  induction bs with
  | nil => rfl
  | cons b bs ih =>
    have hb := b.toNat_lt
    have hbyte : UInt8.ofNat (leNat (b :: bs)) = b := by
      rw [← UInt8.toNat_inj, UInt8.toNat_ofNat', leNat]
      omega
    have hrest : leNat (b :: bs) / 256 = leNat bs := by
      rw [leNat]
      omega
    rw [List.length_cons, leBytes, hbyte, hrest, ih]

theorem leNat_leBytes {w n : ℕ} (h : n < 256 ^ w) : leNat (leBytes w n) = n := by
  induction w generalizing n with
  | zero =>
    have hn : n = 0 := by simpa using h
    subst hn
    rfl
  | succ w ih =>
    have hdiv : n / 256 < 256 ^ w := by
      rw [Nat.div_lt_iff_lt_mul (by norm_num)]
      rwa [pow_succ] at h
    have hbyte : (UInt8.ofNat n).toNat = n % 256 := UInt8.toNat_ofNat'
    rw [leBytes, leNat, ih hdiv, hbyte]
    exact Nat.mod_add_div n 256

/-- `x.to_le_bytes()`. -/
def le16 (x : UInt16) : Bytes := leBytes 2 x.toNat

def le32 (x : UInt32) : Bytes := leBytes 4 x.toNat

def le64 (x : UInt64) : Bytes := leBytes 8 x.toNat

@[simp] theorem length_le16 (x : UInt16) : (le16 x).length = 2 := length_leBytes _ _

@[simp] theorem length_le32 (x : UInt32) : (le32 x).length = 4 := length_leBytes _ _

@[simp] theorem length_le64 (x : UInt64) : (le64 x).length = 8 := length_leBytes _ _

theorem leNat_le16 (x : UInt16) : leNat (le16 x) = x.toNat := leNat_leBytes (by exact x.toNat_lt)

theorem leNat_le32 (x : UInt32) : leNat (le32 x) = x.toNat := leNat_leBytes (by exact x.toNat_lt)

theorem leNat_le64 (x : UInt64) : leNat (le64 x) = x.toNat := leNat_leBytes (by exact x.toNat_lt)

/-- Four bytes are written by the number that they are read as. -/
theorem le32_ofNat_leNat {bs : Bytes} (h : bs.length = 4) : le32 (.ofNat (leNat bs)) = bs := by
  have hlt := leNat_lt bs
  rw [h] at hlt
  rw [le32, UInt32.toNat_ofNat_of_lt' hlt, ← h, leBytes_leNat]

/-- Eight bytes are written by the number that they are read as. -/
theorem le64_ofNat_leNat {bs : Bytes} (h : bs.length = 8) : le64 (.ofNat (leNat bs)) = bs := by
  have hlt := leNat_lt bs
  rw [h] at hlt
  rw [le64, UInt64.toNat_ofNat_of_lt' hlt, ← h, leBytes_leNat]

end Bytes
