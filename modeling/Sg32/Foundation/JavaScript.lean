/-
Values of a scripting language (ECMAScript).

A string is a list of 16-bit code units, and a number is here an integer that a
double holds exactly, or NaN.  Only the operations that a client needs are
there: `parseInt` in base 16, the halving of an index, bytes of a typed array,
and the fields of an object.

* `parseInt_pair` — two hexadecimal digits are read as their value;
* `decodeHex_isSome_iff` — the strings that are hexadecimal throughout.
-/
import Mathlib.Data.List.ReduceOption
import Mathlib.Tactic.Common
import Sg32.Foundation.Bytes

namespace JavaScript

/-- A string, as its UTF-16 code units. -/
abbrev Str := List UInt16

/-- The code units of a text. -/
def utf16 (s : String) : Str :=
  s.toList.flatMap fun c =>
    if c.toNat < 0x10000 then [UInt16.ofNat c.toNat]
    else
      [UInt16.ofNat (0xD800 + (c.toNat - 0x10000) / 0x400),
        UInt16.ofNat (0xDC00 + (c.toNat - 0x10000) % 0x400)]

inductive Number
  | nan
  | int (n : ℤ)
  deriving DecidableEq

namespace Number

/-- `x % 2`, which has the sign of `x`. -/
def remTwo : Number → Number
  | nan => nan
  | int n => int (n.tmod 2)

/-- `x === y`; NaN is equal to nothing. -/
def strictEq : Number → Number → Bool
  | int m, int n => m = n
  | _, _ => false

/-- `Math.floor(x / 2)`. -/
def floorHalf : Number → Number
  | nan => nan
  | int n => int (n / 2)

/-- What an assignment to an element of a `Uint8Array` stores. -/
def toUint8 : Number → UInt8
  | nan => 0
  | int n => UInt8.ofNat (n % 256).toNat

end Number

/-! ### Values -/

inductive Value
  | undefined
  | null
  | bool (b : Bool)
  | number (n : Number)
  | string (s : Str)
  | array (items : List Value)
  | object (fields : List (String × Value))

namespace Value

/-- `x.name`; `none` is an exception. -/
def get (x : Value) (name : String) : Option Value :=
  match x with
  | undefined => none
  | null => none
  | object fields => some (((fields.find? fun field => field.1 = name).map Prod.snd).getD undefined)
  | _ => some undefined

/-- `!!x`. -/
def truthy : Value → Bool
  | undefined => false
  | null => false
  | bool b => b
  | number n => n ≠ .nan ∧ n ≠ .int 0
  | string s => s ≠ []
  | array _ => true
  | object _ => true

/-- `x` in arithmetic.  A text or an object would be parsed first: `none`. -/
def toNumber : Value → Option Number
  | undefined => some .nan
  | null => some (.int 0)
  | bool b => some (.int b.toNat)
  | number n => some n
  | _ => none

def asString : Value → Option Str
  | string s => some s
  | _ => none

/-- The items of an array of strings. -/
def asStrings : Value → Option (List Str)
  | array items => items.mapM asString
  | _ => none

theorem asStrings_array (items : List Str) :
    (array (items.map string)).asStrings = some items := by
  rw [asStrings]
  induction items with
  | nil => rfl
  | cons s items ih =>
    rw [List.map_cons, List.mapM_cons, ih]
    rfl

end Value

/-! ### Reading numbers -/

/-- White space and line ends, which `parseInt` skips. -/
def isWhiteSpace (c : UInt16) : Bool :=
  c.toNat ∈ [0x09, 0x0A, 0x0B, 0x0C, 0x0D, 0x20, 0xA0, 0x1680, 0x2028, 0x2029, 0x202F, 0x205F,
      0x3000, 0xFEFF] ∨ 0x2000 ≤ c.toNat ∧ c.toNat ≤ 0x200A

/-- The value of a hexadecimal digit. -/
def hexDigit (c : UInt16) : Option ℕ :=
  if 0x30 ≤ c.toNat ∧ c.toNat ≤ 0x39 then some (c.toNat - 0x30)
  else if 0x41 ≤ c.toNat ∧ c.toNat ≤ 0x46 then some (c.toNat - 0x37)
  else if 0x61 ≤ c.toNat ∧ c.toNat ≤ 0x66 then some (c.toNat - 0x57)
  else none

/-- The value of the digits at the start; NaN when there are none. -/
def digitsValue (negative : Bool) (s : Str) : Number :=
  match s.map hexDigit |>.takeWhile Option.isSome |>.reduceOption with
  | [] => .nan
  | digits =>
    let value : ℕ := digits.foldl (fun value digit => 16 * value + digit) 0
    .int (if negative then -value else value)

/-- Drop a `0x` in front. -/
def dropHexMark : Str → Str
  | zero :: x :: s =>
    if zero.toNat = 0x30 ∧ (x.toNat = 0x78 ∨ x.toNat = 0x58) then s else zero :: x :: s
  | s => s

/-- `parseInt(s, 16)`: white space, a sign and `0x` may come first, and what
follows the digits is ignored. -/
def parseInt (s : Str) : Number :=
  match s.dropWhile isWhiteSpace with
  | [] => .nan
  | c :: s =>
    if c.toNat = 0x2D then digitsValue true (dropHexMark s)
    else if c.toNat = 0x2B then digitsValue false (dropHexMark s)
    else digitsValue false (dropHexMark (c :: s))

/-- The bytes of a hexadecimal string: an even number of digits and nothing else. -/
def decodeHex : Str → Option Bytes
  | [] => some []
  | [_] => none
  | a :: b :: s => do
    let high ← hexDigit a
    let low ← hexDigit b
    let bytes ← decodeHex s
    some (UInt8.ofNat (16 * high + low) :: bytes)

/-- A digit is neither white space, nor a sign, nor the `x` of a mark. -/
theorem hexDigit_eq_some {c : UInt16} {digit : ℕ} (h : hexDigit c = some digit) :
    digit < 16 ∧ isWhiteSpace c = false ∧ c.toNat ≠ 0x2D ∧ c.toNat ≠ 0x2B ∧
      c.toNat ≠ 0x78 ∧ c.toNat ≠ 0x58 := by
  have hclass : isWhiteSpace c = false ↔ ¬ (c.toNat ∈ [0x09, 0x0A, 0x0B, 0x0C, 0x0D, 0x20, 0xA0,
      0x1680, 0x2028, 0x2029, 0x202F, 0x205F, 0x3000, 0xFEFF] ∨
      0x2000 ≤ c.toNat ∧ c.toNat ≤ 0x200A) := decide_eq_false_iff_not
  rw [hclass]
  simp only [List.mem_cons, List.not_mem_nil, or_false]
  rw [hexDigit] at h
  split_ifs at h with hdecimal hupper hlower
  · cases h
    omega
  · cases h
    omega
  · cases h
    omega

/-- Two digits are read as the byte they stand for. -/
theorem parseInt_pair {a b : UInt16} {high low : ℕ} (ha : hexDigit a = some high)
    (hb : hexDigit b = some low) : parseInt [a, b] = .int (16 * high + low) := by
  obtain ⟨-, hspace, hminus, hplus, -, -⟩ := hexDigit_eq_some ha
  obtain ⟨-, -, -, -, hx, hx'⟩ := hexDigit_eq_some hb
  have hmark : dropHexMark [a, b] = [a, b] := by
    rw [dropHexMark, if_neg]
    rintro ⟨-, h | h⟩
    · exact hx h
    · exact hx' h
  rw [parseInt, List.dropWhile_cons_of_neg (by simp [hspace])]
  dsimp only
  rw [if_neg hminus, if_neg hplus, hmark, digitsValue]
  simp [ha, hb]

theorem decodeHex_isSome_iff {s : Str} :
    (decodeHex s).isSome = true ↔ s.length % 2 = 0 ∧ ∀ c ∈ s, (hexDigit c).isSome = true := by
  induction s using decodeHex.induct with
  | case1 => simp [decodeHex]
  | case2 => simp [decodeHex]
  | case3 a b s ih =>
    have hlen : (a :: b :: s).length % 2 = s.length % 2 := by
      rw [List.length_cons, List.length_cons]
      omega
    have hparts : (decodeHex (a :: b :: s)).isSome = true ↔ (hexDigit a).isSome = true ∧
        (hexDigit b).isSome = true ∧ (decodeHex s).isSome = true := by
      rw [decodeHex]
      rcases hexDigit a with _ | high <;> rcases hexDigit b with _ | low <;>
        rcases decodeHex s with _ | bytes <;> simp
    rw [hparts, ih, hlen, List.forall_mem_cons, List.forall_mem_cons]
    tauto

theorem length_of_decodeHex {s : Str} {bytes : Bytes} (h : decodeHex s = some bytes) :
    s.length = 2 * bytes.length := by
  induction s using decodeHex.induct generalizing bytes with
  | case1 =>
    cases h
    rfl
  | case2 => cases h
  | case3 a b s ih =>
    simp only [decodeHex, Option.bind_eq_bind, Option.bind_eq_some_iff] at h
    obtain ⟨high, -, low, -, tail, htail, h⟩ := h
    cases h
    rw [List.length_cons, List.length_cons, List.length_cons, ih htail]
    omega

end JavaScript
