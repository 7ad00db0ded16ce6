/-
Tables that invert a nondecreasing function.

An argument is stored at its value, later arguments over earlier ones, and an
empty place of the table takes what stands before it.  A place then holds the
largest argument whose value it bounds.

* `getElem?_stored` — a place holds the last argument with its value;
* `largest_succ` — that argument is the largest one of a value up to it, unless
  there is none;
* `getElem?_forwardFill` — filling a table, place by place;
* `getElem?_inverse` — a filled table holds the largest arguments.
-/
import Mathlib.Data.Nat.Find
import Mathlib.Order.Monotone.Basic

namespace InverseTable

variable (f : ℕ → ℕ)

/-- The last argument from `1` to `n` with the value `t`, or `0`. -/
def lastAt (n t : ℕ) : ℕ := Nat.findGreatest (fun b => f b = t) n

/-- The largest argument from `1` to `n` with a value up to `t`, or `0`. -/
def largest (n t : ℕ) : ℕ := Nat.findGreatest (fun b => f b ≤ t) n

variable {f}

/-! ### Largest arguments -/

theorem largest_le (n t : ℕ) : largest f n t ≤ n := Nat.findGreatest_le n

theorem apply_largest_le {n t : ℕ} (h : largest f n t ≠ 0) : f (largest f n t) ≤ t :=
  (Nat.findGreatest_eq_iff.mp (rfl : largest f n t = _)).2.1 h

theorem le_largest {n t b : ℕ} (hb : b ≤ n) (h : f b ≤ t) : b ≤ largest f n t :=
  Nat.le_findGreatest hb h

theorem largest_eq_zero_iff (hf : Monotone f) {n t : ℕ} (hn : 1 ≤ n) :
    largest f n t = 0 ↔ t < f 1 := by
  rw [largest, Nat.findGreatest_eq_zero_iff]
  constructor
  · intro h
    exact Nat.not_le.mp (h Nat.one_pos hn)
  · intro h b hb _ hle
    exact absurd (h.trans_le (hf hb)) (Nat.not_lt.mpr hle)

theorem lastAt_le (n t : ℕ) : lastAt f n t ≤ n := Nat.findGreatest_le n

theorem largest_zero (hpos : ∀ b, 0 < f b) (n : ℕ) : largest f n 0 = 0 := by
  rw [largest, Nat.findGreatest_eq_zero_iff]
  intro b _ _ hle
  exact absurd (hpos b) (Nat.not_lt.mpr hle)

theorem lastAt_zero (hpos : ∀ b, 0 < f b) (n : ℕ) : lastAt f n 0 = 0 := by
  rw [lastAt, Nat.findGreatest_eq_zero_iff]
  intro b _ _ heq
  exact absurd heq (hpos b).ne'

/-- The last argument of a value is larger than every one of a smaller value. -/
theorem largest_succ (hf : Monotone f) (n t : ℕ) :
    largest f n (t + 1) =
      if lastAt f n (t + 1) = 0 then largest f n t else lastAt f n (t + 1) := by
  split_ifs with hnone
  · -- no argument has the value `t + 1`
    rw [lastAt, Nat.findGreatest_eq_zero_iff] at hnone
    refine le_antisymm ?_ (Nat.findGreatest_mono_left (fun b hb => hb.trans (Nat.le_succ t)) n)
    by_cases hzero : largest f n (t + 1) = 0
    · rw [hzero]
      exact Nat.zero_le _
    · refine le_largest (largest_le n _) (Nat.le_of_lt_succ ?_)
      refine lt_of_le_of_ne (apply_largest_le hzero) ?_
      exact hnone (Nat.pos_of_ne_zero hzero) (largest_le n _)
  · have hlast : f (lastAt f n (t + 1)) = t + 1 :=
      (Nat.findGreatest_eq_iff.mp (rfl : lastAt f n (t + 1) = _)).2.1 hnone
    refine le_antisymm ?_ (le_largest (lastAt_le n _) hlast.le)
    by_contra hlt
    rw [Nat.not_le] at hlt
    -- a larger argument would have the same value
    have hne : largest f n (t + 1) ≠ 0 := by omega
    have hsame : f (largest f n (t + 1)) = t + 1 :=
      le_antisymm (apply_largest_le hne) (hlast.ge.trans (hf hlt.le))
    exact Nat.findGreatest_is_greatest hlt (largest_le n _) hsame

/-! ### Tables -/

variable {α : Type*}

/-- The table with the arguments from `1` to `n` stored at their values. -/
def stored (f : ℕ → ℕ) (encode : ℕ → α) (size n : ℕ) : List α :=
  (List.range' 1 n).foldl (fun table b => table.set (f b) (encode b))
    (List.replicate size (encode 0))

theorem stored_succ (encode : ℕ → α) (size n : ℕ) :
    stored f encode size (n + 1) = (stored f encode size n).set (f (n + 1)) (encode (n + 1)) := by
  rw [stored, List.range'_1_concat, List.foldl_append, Nat.add_comm 1 n]
  rfl

theorem length_stored (encode : ℕ → α) (size n : ℕ) : (stored f encode size n).length = size := by
  induction n with
  | zero => exact List.length_replicate
  | succ n ih => rw [stored_succ, List.length_set, ih]

theorem getElem?_stored (encode : ℕ → α) {size t : ℕ} (ht : t < size) (n : ℕ) :
    (stored f encode size n)[t]? = some (encode (lastAt f n t)) := by
  induction n with
  | zero =>
    rw [lastAt, Nat.findGreatest_zero]
    exact List.getElem?_replicate_of_lt ht
  | succ n ih =>
    have hlast : lastAt f (n + 1) t = if f (n + 1) = t then n + 1 else lastAt f n t :=
      Nat.findGreatest_succ n
    rw [stored_succ, List.getElem?_set, length_stored, ih, hlast]
    by_cases heq : f (n + 1) = t
    · rw [if_pos heq, if_pos (heq ▸ ht), if_pos heq]
    · rw [if_neg heq, if_neg heq]

section Fill

variable [Zero α] [DecidableEq α]

/-- Every empty place takes what stands before it, the first one `last`. -/
def forwardFill : α → List α → List α
  | _, [] => []
  | last, entry :: entries =>
    let entry := if entry = 0 then last else entry
    entry :: forwardFill entry entries

/-- A filled table, when `g` says what the places take that hold `v`. -/
theorem getElem?_forwardFill {last : α} {entries : List α} {v g : ℕ → α}
    (hentries : ∀ t < entries.length, entries[t]? = some (v t))
    (hfirst : g 0 = if v 0 = 0 then last else v 0)
    (hnext : ∀ t, g (t + 1) = if v (t + 1) = 0 then g t else v (t + 1))
    {t : ℕ} (ht : t < entries.length) : (forwardFill last entries)[t]? = some (g t) := by
  induction entries generalizing last v g t with
  | nil => exact absurd ht (Nat.not_lt_zero t)
  | cons entry entries ih =>
    have hentry : entry = v 0 := Option.some.inj (hentries 0 (Nat.succ_pos _))
    rw [forwardFill, hentry, ← hfirst]
    cases t with
    | zero => rfl
    | succ t =>
      -- the places behind the first, filled from what the first one took
      have hbehind : ∀ s < entries.length, entries[s]? = some (v (s + 1)) := fun s hs =>
        hentries (s + 1) (Nat.succ_lt_succ hs)
      exact ih (g := fun s => g (s + 1)) hbehind (hnext 0) (fun s => hnext (s + 1))
        (Nat.lt_of_succ_lt_succ ht)

/-- **The inverse of a nondecreasing function**: a filled table holds the
largest argument of a value up to each place. -/
theorem getElem?_inverse (hf : Monotone f) (hpos : ∀ b, 0 < f b) {encode : ℕ → α} {n : ℕ}
    (hencode : ∀ b ≤ n, encode b = 0 ↔ b = 0) {size t : ℕ} (ht : t < size) :
    (forwardFill 0 (stored f encode size n))[t]? = some (encode (largest f n t)) := by
  have hlength := length_stored (f := f) encode size n
  have hzero : encode 0 = 0 := (hencode 0 (Nat.zero_le n)).mpr rfl
  refine getElem?_forwardFill (v := fun t => encode (lastAt f n t))
    (g := fun t => encode (largest f n t)) ?_ ?_ ?_ (lt_of_lt_of_eq ht hlength.symm)
  · intro s hs
    exact getElem?_stored encode (lt_of_lt_of_eq hs hlength) n
  · rw [largest_zero hpos, lastAt_zero hpos, hzero, if_pos rfl]
  · intro s
    rw [largest_succ hf, apply_ite encode]
    simp only [hencode _ (lastAt_le n (s + 1))]

end Fill

end InverseTable
