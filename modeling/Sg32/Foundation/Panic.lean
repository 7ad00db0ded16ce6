/-
Panicking computations (the run-time checks of a systems language).

`Checked α` is a computation that returns an `α` or panics.  A list access
through `index` panics out of bounds, and machine arithmetic panics on
overflow in a debug build and wraps in a release build.

* `Returns` — the computation does not panic;
* `exists_first_of_mem` — where a loop that searches stops;
* `mapM_ok`, `returns_mapM` — a loop that maps, when its body returns;
* `foldlM_ok`, `returns_foldlM` — a loop with an accumulator;
* `foldlM_concat_eq_ok` — its last turn, split off;
* `foldlM_invariant`, `foldlM_preserves` — what every step keeps, a run keeps;
* `addU64_ok`, `subU64_ok`, `subU32_ok` — arithmetic that stays in range.
-/
import Mathlib.Algebra.Group.Nat.Defs
import Mathlib.Data.List.Basic
import Mathlib.Tactic.Common

namespace Rust

/-- Why a thread panics. -/
inductive Panic
  | indexOutOfBounds
  | sliceOutOfRange
  | arithmeticOverflow
  | remainderByZero
  | assertionFailed
  | lengthMismatch
  deriving DecidableEq, Repr

/-- A computation that may panic. -/
abbrev Checked (α : Type) := Except Panic α

/-- The computation runs to its end. -/
def Returns {α : Type} (c : Checked α) : Prop := ∃ a, c = .ok a

instance {α : Type} (c : Checked α) : Decidable (Returns c) :=
  match c with
  | .ok a => .isTrue ⟨a, rfl⟩
  | .error _ => .isFalse fun ⟨_, h⟩ => nomatch h

variable {α β σ : Type}

@[simp] theorem returns_ok (a : α) : Returns (.ok a : Checked α) := ⟨a, rfl⟩

@[simp] theorem returns_pure (a : α) : Returns (pure a : Checked α) := ⟨a, rfl⟩

@[simp] theorem not_returns_error (p : Panic) : ¬ Returns (.error p : Checked α) := by
  rintro ⟨a, h⟩
  cases h

@[simp] theorem ok_bind (a : α) (f : α → Checked β) :
    ((.ok a : Checked α) >>= f) = f a := rfl

@[simp] theorem error_bind (p : Panic) (f : α → Checked β) :
    ((.error p : Checked α) >>= f) = .error p := rfl

theorem bind_eq_ok {c : Checked α} {f : α → Checked β} {b : β} :
    c >>= f = .ok b ↔ ∃ a, c = .ok a ∧ f a = .ok b := by
  rcases c with p | a
  · simp
  · simp

theorem returns_bind {c : Checked α} {f : α → Checked β} :
    Returns (c >>= f) ↔ ∃ a, c = .ok a ∧ Returns (f a) := by
  rcases c with p | a
  · simp
  · simp

/-- `xs[i]`. -/
def index (xs : List α) (i : ℕ) : Checked α :=
  match xs[i]? with
  | some x => .ok x
  | none => .error .indexOutOfBounds

theorem index_eq_ok {xs : List α} {i : ℕ} {x : α} :
    index xs i = .ok x ↔ xs[i]? = some x := by
  unfold index
  cases xs[i]? <;> simp

theorem index_of_lt {xs : List α} {i : ℕ} (h : i < xs.length) :
    index xs i = .ok xs[i] := by
  rw [index_eq_ok, List.getElem?_eq_getElem h]

theorem returns_index {xs : List α} {i : ℕ} : Returns (index xs i) ↔ i < xs.length := by
  constructor
  · rintro ⟨x, hx⟩
    exact (List.getElem?_eq_some_iff.mp (index_eq_ok.mp hx)).choose
  · intro h
    exact ⟨_, index_of_lt h⟩

/-- `xs[i] = x`. -/
def store (xs : List α) (i : ℕ) (x : α) : Checked (List α) :=
  if i < xs.length then .ok (xs.set i x) else .error .indexOutOfBounds

/-- `&xs[i..]`. -/
def sliceFrom (xs : List α) (i : ℕ) : Checked (List α) :=
  if i ≤ xs.length then .ok (xs.drop i) else .error .sliceOutOfRange

theorem sliceFrom_of_le {xs : List α} {i : ℕ} (h : i ≤ xs.length) :
    sliceFrom xs i = .ok (xs.drop i) := if_pos h

theorem returns_sliceFrom {xs : List α} {i : ℕ} :
    Returns (sliceFrom xs i) ↔ i ≤ xs.length := by
  unfold sliceFrom
  split_ifs with h <;> simp [h]

/-- `&xs[a..b]`. -/
def slice (xs : List α) (a b : ℕ) : Checked (List α) :=
  if a ≤ b ∧ b ≤ xs.length then .ok ((xs.drop a).take (b - a)) else .error .sliceOutOfRange

theorem slice_of_le {xs : List α} {a b : ℕ} (hab : a ≤ b) (hb : b ≤ xs.length) :
    slice xs a b = .ok ((xs.drop a).take (b - a)) := if_pos ⟨hab, hb⟩

/-! ### Loops -/

/-- Where a loop that looks for `p` stops. -/
theorem exists_first_of_mem {p : α → Prop} {xs : List α} (h : ∃ x ∈ xs, p x) :
    ∃ before first after, xs = before ++ first :: after ∧ p first ∧ ∀ x ∈ before, ¬ p x := by
  induction xs with
  | nil =>
    obtain ⟨x, hmem, -⟩ := h
    cases hmem
  | cons x xs ih =>
    by_cases hx : p x
    · exact ⟨[], x, xs, rfl, hx, fun y hy => absurd hy List.not_mem_nil⟩
    obtain ⟨before, first, after, rfl, hfirst, hbefore⟩ := ih (by
      obtain ⟨y, hmem, hy⟩ := h
      rcases List.mem_cons.mp hmem with rfl | hmem
      · exact absurd hy hx
      · exact ⟨y, hmem, hy⟩)
    exact ⟨x :: before, first, after, rfl, hfirst, List.forall_mem_cons.mpr ⟨hx, hbefore⟩⟩

theorem mapM_ok {xs : List α} {f : α → Checked β} {g : α → β}
    (h : ∀ x ∈ xs, f x = .ok (g x)) : xs.mapM f = .ok (xs.map g) := by
  induction xs with
  | nil => rfl
  | cons x xs ih =>
    rw [List.mapM_cons, h x List.mem_cons_self,
      ih fun y hy => h y (List.mem_cons_of_mem x hy)]
    rfl

theorem returns_mapM {xs : List α} {f : α → Checked β} :
    Returns (xs.mapM f) ↔ ∀ x ∈ xs, Returns (f x) := by
  induction xs with
  | nil => exact ⟨fun _ x hx => absurd hx List.not_mem_nil, fun _ => ⟨[], rfl⟩⟩
  | cons x xs ih =>
    rw [List.mapM_cons, returns_bind, List.forall_mem_cons, ← ih]
    constructor
    · rintro ⟨y, hy, hys⟩
      obtain ⟨ys, hys, -⟩ := returns_bind.mp hys
      exact ⟨⟨y, hy⟩, ⟨ys, hys⟩⟩
    · rintro ⟨⟨y, hy⟩, ⟨ys, hys⟩⟩
      exact ⟨y, hy, returns_bind.mpr ⟨ys, hys, returns_pure _⟩⟩

theorem getElem?_of_mapM {f : α → Checked β} {xs : List α} {ys : List β}
    (h : xs.mapM f = .ok ys) : xs.length = ys.length ∧
      ∀ (i : ℕ) (y : β), ys[i]? = some y → ∃ x, xs[i]? = some x ∧ f x = .ok y := by
  induction xs generalizing ys with
  | nil =>
    cases h
    exact ⟨rfl, fun i y hy => by cases hy⟩
  | cons x xs ih =>
    rw [List.mapM_cons] at h
    obtain ⟨y, hy, h⟩ := bind_eq_ok.mp h
    obtain ⟨ys, hys, h⟩ := bind_eq_ok.mp h
    cases h
    obtain ⟨hlen, hget⟩ := ih hys
    refine ⟨congrArg (· + 1) hlen, fun i z hz => ?_⟩
    cases i with
    | zero =>
      cases hz
      exact ⟨x, rfl, hy⟩
    | succ i => exact hget i z hz

theorem exists_of_mem_mapM {xs : List α} {f : α → Checked β} {ys : List β}
    (h : xs.mapM f = .ok ys) {y : β} (hy : y ∈ ys) : ∃ x ∈ xs, f x = .ok y := by
  obtain ⟨i, hi⟩ := List.getElem?_of_mem hy
  obtain ⟨x, hx, hfx⟩ := (getElem?_of_mapM h).2 i y hi
  exact ⟨x, List.mem_of_getElem? hx, hfx⟩

theorem foldlM_ok {xs : List α} {f : σ → α → Checked σ} {g : σ → α → σ}
    (h : ∀ s, ∀ x ∈ xs, f s x = .ok (g s x)) (s : σ) :
    xs.foldlM f s = .ok (xs.foldl g s) := by
  induction xs generalizing s with
  | nil => rfl
  | cons x xs ih =>
    rw [List.foldlM_cons, h s x List.mem_cons_self]
    exact ih (fun s y hy => h s y (List.mem_cons_of_mem x hy)) (g s x)

/-- The last turn of an accumulating loop, split off. -/
theorem foldlM_concat {m : Type → Type} [Monad m] [LawfulMonad m] {f : σ → α → m σ}
    {s : σ} {xs : List α} {x : α} :
    (xs ++ [x]).foldlM f s = xs.foldlM f s >>= fun mid => f mid x := by
  simp only [List.foldlM_append, List.foldlM_cons, List.foldlM_nil, bind_pure]

theorem foldlM_concat_eq_ok {f : σ → α → Checked σ} {s s' : σ} {xs : List α} {x : α} :
    (xs ++ [x]).foldlM f s = .ok s' ↔
      ∃ mid, xs.foldlM f s = .ok mid ∧ f mid x = .ok s' := by
  rw [foldlM_concat, bind_eq_ok]

/-- An accumulating loop whose body panics or not whatever the accumulator. -/
theorem returns_foldlM {xs : List α} {f : σ → α → Checked σ} {P : α → Prop}
    (h : ∀ s, ∀ x ∈ xs, (Returns (f s x) ↔ P x)) (s : σ) :
    Returns (xs.foldlM f s) ↔ ∀ x ∈ xs, P x := by
  induction xs generalizing s with
  | nil => exact ⟨fun _ x hx => absurd hx List.not_mem_nil, fun _ => ⟨s, rfl⟩⟩
  | cons x xs ih =>
    have ih' := fun s' => ih (fun s y hy => h s y (List.mem_cons_of_mem x hy)) s'
    rw [List.foldlM_cons, returns_bind, List.forall_mem_cons,
      ← h s x List.mem_cons_self]
    constructor
    · rintro ⟨s', hs', hr⟩
      exact ⟨⟨s', hs'⟩, (ih' s').mp hr⟩
    · rintro ⟨⟨s', hs'⟩, hr⟩
      exact ⟨s', hs', (ih' s').mpr hr⟩

/-- An invariant of the items seen so far, kept by a step that returns: the
run returns and the invariant holds at its end. -/
theorem foldlM_invariant {f : σ → α → Checked σ} (Inv : List α → σ → Prop) {P : α → Prop}
    (hstep : ∀ seen s x, P x → Inv seen s → ∃ s', f s x = .ok s' ∧ Inv (seen ++ [x]) s')
    {xs : List α} (hxs : ∀ x ∈ xs, P x) {seen : List α} {s : σ} (h : Inv seen s) :
    ∃ s', xs.foldlM f s = .ok s' ∧ Inv (seen ++ xs) s' := by
  induction xs generalizing seen s with
  | nil => exact ⟨s, rfl, by rwa [List.append_nil]⟩
  | cons x xs ih =>
    obtain ⟨mid, hmid, hinv⟩ := hstep seen s x (hxs x List.mem_cons_self) h
    obtain ⟨s', hs', hinv'⟩ := ih (fun y hy => hxs y (List.mem_cons_of_mem x hy)) hinv
    rw [List.foldlM_cons, hmid]
    exact ⟨s', hs', by rwa [List.append_assoc] at hinv'⟩

/-- What every step that returns keeps, every run that returns keeps. -/
theorem foldlM_preserves {f : σ → α → Checked σ} (Inv : σ → Prop)
    (hstep : ∀ s x s', f s x = .ok s' → Inv s → Inv s') {xs : List α} {s s' : σ}
    (hrun : xs.foldlM f s = .ok s') (h : Inv s) : Inv s' := by
  induction xs generalizing s with
  | nil =>
    cases hrun
    exact h
  | cons x xs ih =>
    rw [List.foldlM_cons] at hrun
    obtain ⟨mid, hmid, hrun⟩ := bind_eq_ok.mp hrun
    exact ih hrun (hstep s x mid hmid h)

/-! ### Machine arithmetic -/

/-- The two ways the program is compiled: with overflow checks or without. -/
inductive Build
  | debug
  | release
  deriving DecidableEq, Repr

/-- The value of an operation that may have left its range. -/
def Build.check (build : Build) (inRange : Bool) (wrapped : α) : Checked α :=
  if inRange then .ok wrapped
  else
    match build with
    | .debug => .error .arithmeticOverflow
    | .release => .ok wrapped

theorem Build.check_of_inRange (build : Build) {inRange : Prop} [Decidable inRange]
    (h : inRange) (wrapped : α) : build.check inRange wrapped = .ok wrapped := by
  unfold Build.check
  exact if_pos (decide_eq_true h)

@[simp] theorem Build.check_release (inRange : Bool) (wrapped : α) :
    Build.release.check inRange wrapped = .ok wrapped := by
  cases inRange <;> rfl

theorem Build.check_debug_of_not {inRange : Prop} [Decidable inRange] (h : ¬inRange)
    (wrapped : α) : Build.debug.check inRange wrapped = .error .arithmeticOverflow := by
  unfold Build.check
  rw [if_neg (by rwa [decide_eq_true_iff])]

/-- `x + y` on `u64`. -/
def addU64 (build : Build) (x y : UInt64) : Checked UInt64 :=
  build.check (x.toNat + y.toNat < 2 ^ 64) (x + y)

/-- `x - y` on `u64`. -/
def subU64 (build : Build) (x y : UInt64) : Checked UInt64 :=
  build.check (y.toNat ≤ x.toNat) (x - y)

/-- `x % y` on `u64`. -/
def remU64 (x y : UInt64) : Checked UInt64 :=
  if y = 0 then .error .remainderByZero else .ok (x % y)

/-- `x << shift` on `u64`. -/
def shlU64 (build : Build) (x : UInt64) (shift : ℕ) : Checked UInt64 :=
  build.check (shift < 64) (x <<< UInt64.ofNat shift)

/-- `x - y` on `u32`. -/
def subU32 (build : Build) (x y : UInt32) : Checked UInt32 :=
  build.check (y.toNat ≤ x.toNat) (x - y)

theorem addU64_ok (build : Build) {x y : UInt64} (h : x.toNat + y.toNat < 2 ^ 64) :
    addU64 build x y = .ok (x + y) ∧ (x + y).toNat = x.toNat + y.toNat := by
  constructor
  · exact build.check_of_inRange h _
  · rw [UInt64.toNat_add]
    exact Nat.mod_eq_of_lt h

theorem subU64_ok (build : Build) {x y : UInt64} (h : y.toNat ≤ x.toNat) :
    subU64 build x y = .ok (x - y) ∧ (x - y).toNat = x.toNat - y.toNat := by
  constructor
  · exact build.check_of_inRange h _
  · exact UInt64.toNat_sub_of_le x y (UInt64.le_iff_toNat_le.mpr h)

theorem subU32_ok (build : Build) {x y : UInt32} (h : y.toNat ≤ x.toNat) :
    subU32 build x y = .ok (x - y) ∧ (x - y).toNat = x.toNat - y.toNat := by
  constructor
  · exact build.check_of_inRange h _
  · exact UInt32.toNat_sub_of_le x y (UInt32.le_iff_toNat_le.mpr h)

/-- The larger of two numbers, as a least upper bound. -/
instance lawfulOrderMaxUInt64 : Std.LawfulOrderMax UInt64 where
  max_eq_or a b := by
    show (if a ≤ b then b else a) = a ∨ (if a ≤ b then b else a) = b
    split_ifs
    · exact .inr rfl
    · exact .inl rfl
  max_le_iff a b c := by
    show (if a ≤ b then b else a) ≤ c ↔ _
    simp only [UInt64.le_iff_toNat_le]
    split_ifs <;> omega

end Rust
