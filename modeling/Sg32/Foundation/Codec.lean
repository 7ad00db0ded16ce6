/-
Canonical binary formats (a way to write values, and to read them back).

A `Codec` reads a value from the front of some bytes and returns what is left.
It carries its two laws: what it writes it reads back, whatever follows; and
what it accepts is what it would have written.  Formats are put together from
smaller ones, and the laws with them.

* `decode_eq_some_iff` — exactly which bytes are accepted;
* `encode_append_inj` — no encoding is the beginning of another;
* `pair`, `xmap`, `prefixed` — formats from formats;
* `decodeAll_eq_some_iff` — packets that hold one value.
-/
import Sg32.Foundation.Bytes
import Mathlib.Logic.Equiv.Prod
import Mathlib.Tactic.Common

namespace Bytes

/-- A format for the values that are `Valid`. -/
structure Codec (α : Type) where
  Valid : α → Prop
  encode : α → Bytes
  decode : Bytes → Option (α × Bytes)
  decode_encode : ∀ {a : α}, Valid a → ∀ rest, decode (encode a ++ rest) = some (a, rest)
  of_decode : ∀ {bytes : Bytes} {a : α} {rest : Bytes},
    decode bytes = some (a, rest) → Valid a ∧ bytes = encode a ++ rest

namespace Codec

variable {α β : Type} {c : Codec α} {d : Codec β} {a b : α} {bytes rest rest' : Bytes}

theorem decode_eq_some_iff :
    c.decode bytes = some (a, rest) ↔ c.Valid a ∧ bytes = c.encode a ++ rest := by
  constructor
  · exact c.of_decode
  · rintro ⟨hvalid, rfl⟩
    exact c.decode_encode hvalid rest

/-- **No encoding is the beginning of another.** -/
theorem encode_append_inj (ha : c.Valid a) (hb : c.Valid b)
    (h : c.encode a ++ rest = c.encode b ++ rest') : a = b ∧ rest = rest' := by
  have hread := c.decode_encode ha rest
  rw [h, c.decode_encode hb rest'] at hread
  cases hread
  exact ⟨rfl, rfl⟩

theorem encode_inj (ha : c.Valid a) (hb : c.Valid b) (h : c.encode a = c.encode b) : a = b :=
  (encode_append_inj ha hb (congrArg (· ++ []) h)).1

/-! ### Numbers and arrays -/

/-- Exactly `n` bytes. -/
def fixed (n : ℕ) : Codec Bytes where
  Valid bytes := bytes.length = n
  encode bytes := bytes
  decode bytes := if n ≤ bytes.length then some (bytes.take n, bytes.drop n) else none
  decode_encode := by
    rintro bytes rfl rest
    rw [if_pos (by simp), List.take_left, List.drop_left]
  of_decode := by
    intro bytes a rest h
    split_ifs at h with hle
    cases h
    exact ⟨List.length_take_of_le hle, (List.take_append_drop n bytes).symm⟩

/-- Values in a part of another format: what is written is in that part. -/
def xmap (c : Codec α) (read : α → Option β) (write : β → α)
    (write_of_read : ∀ a b, read a = some b → write b = a) : Codec β where
  Valid b := c.Valid (write b) ∧ read (write b) = some b
  encode b := c.encode (write b)
  decode bytes := do
    let (a, rest) ← c.decode bytes
    let b ← read a
    some (b, rest)
  decode_encode := by
    rintro b ⟨hvalid, hread⟩ rest
    rw [c.decode_encode hvalid]
    simp [hread]
  of_decode := by
    intro bytes b rest h
    simp only [Option.bind_eq_bind, Option.bind_eq_some_iff, Option.some.injEq, Prod.mk.injEq,
      Prod.exists] at h
    obtain ⟨a, rest', hdecode, b', hread, rfl, rfl⟩ := h
    obtain ⟨hvalid, hbytes⟩ := c.of_decode hdecode
    obtain rfl := write_of_read a b' hread
    exact ⟨⟨hvalid, hread⟩, hbytes⟩

/-- Values in bijection with those of another format. -/
def map (c : Codec α) (e : α ≃ β) : Codec β :=
  c.xmap (fun a => some (e a)) e.symm (by
    rintro a b h
    cases h
    exact e.symm_apply_apply a)

theorem valid_map {e : α ≃ β} {b : β} : (c.map e).Valid b ↔ c.Valid (e.symm b) := by
  show c.Valid (e.symm b) ∧ some (e (e.symm b)) = some b ↔ _
  rw [e.apply_symm_apply]
  simp

/-- A number in `w` bytes, least significant first. -/
def uint (w : ℕ) : Codec ℕ where
  Valid n := n < 256 ^ w
  encode := leBytes w
  decode bytes := if w ≤ bytes.length then some (leNat (bytes.take w), bytes.drop w) else none
  decode_encode := by
    intro n hn rest
    have hlen := length_leBytes w n
    rw [if_pos (by simp), List.take_append_of_le_length hlen.ge, List.take_of_length_le hlen.le,
      leNat_leBytes hn, List.drop_append_of_le_length hlen.ge, List.drop_of_length_le hlen.le,
      List.nil_append]
  of_decode := by
    intro bytes n rest h
    split_ifs at h with hle
    cases h
    have hlen : (bytes.take w).length = w := List.length_take_of_le hle
    have hlt := leNat_lt (bytes.take w)
    have hwrite := leBytes_leNat (bytes.take w)
    rw [hlen] at hlt hwrite
    exact ⟨hlt, by rw [hwrite, List.take_append_drop]⟩

/-- A machine word of `w` bytes. -/
def word (w : ℕ) (ofNat : ℕ → α) (toNat : α → ℕ)
    (toNat_ofNat : ∀ n < 256 ^ w, toNat (ofNat n) = n) : Codec α :=
  (uint w).xmap (fun n => if n < 256 ^ w then some (ofNat n) else none) toNat (by
    intro n x h
    split_ifs at h with hlt
    cases h
    exact toNat_ofNat n hlt)

theorem valid_word {w : ℕ} {ofNat : ℕ → α} {toNat : α → ℕ}
    {toNat_ofNat : ∀ n < 256 ^ w, toNat (ofNat n) = n} {x : α} (hlt : toNat x < 256 ^ w)
    (hx : ofNat (toNat x) = x) : (word w ofNat toNat toNat_ofNat).Valid x := by
  refine ⟨hlt, ?_⟩
  show (if toNat x < 256 ^ w then some (ofNat (toNat x)) else none) = some x
  rw [if_pos hlt, hx]

def u32 : Codec UInt32 := word 4 .ofNat UInt32.toNat fun _ h => UInt32.toNat_ofNat_of_lt' h

def u64 : Codec UInt64 := word 8 .ofNat UInt64.toNat fun _ h => UInt64.toNat_ofNat_of_lt' h

/-- `N` bytes, as an array. -/
def array (N : ℕ) : Codec (Vector UInt8 N) :=
  (fixed N).xmap (fun bytes => if h : bytes.length = N then some ⟨⟨bytes⟩, h⟩ else none)
    Vector.toList (by
      intro bytes arr h
      split_ifs at h
      cases h
      rfl)

@[simp] theorem valid_u32 (x : UInt32) : u32.Valid x := valid_word x.toNat_lt UInt32.ofNat_toNat

@[simp] theorem valid_u64 (x : UInt64) : u64.Valid x := valid_word x.toNat_lt UInt64.ofNat_toNat

@[simp] theorem valid_array {N : ℕ} (arr : Vector UInt8 N) : (array N).Valid arr :=
  ⟨arr.length_toList, dif_pos arr.length_toList⟩

/-- Bytes that are long enough begin with an array. -/
theorem exists_array_append {N : ℕ} (h : N ≤ bytes.length) :
    ∃ (arr : Vector UInt8 N) (rest : Bytes), bytes = arr.toList ++ rest :=
  ⟨⟨⟨bytes.take N⟩, List.length_take_of_le h⟩, bytes.drop N, (List.take_append_drop N bytes).symm⟩

/-! ### Several values -/

/-- One value after the other. -/
def pair (c : Codec α) (d : Codec β) : Codec (α × β) where
  Valid p := c.Valid p.1 ∧ d.Valid p.2
  encode p := c.encode p.1 ++ d.encode p.2
  decode bytes := do
    let (a, bytes) ← c.decode bytes
    let (b, rest) ← d.decode bytes
    some ((a, b), rest)
  decode_encode := by
    rintro ⟨a, b⟩ ⟨ha, hb⟩ rest
    rw [List.append_assoc, c.decode_encode ha]
    simp [d.decode_encode hb]
  of_decode := by
    rintro bytes ⟨a, b⟩ rest h
    simp only [Option.bind_eq_bind, Option.bind_eq_some_iff, Option.some.injEq, Prod.mk.injEq,
      Prod.exists] at h
    obtain ⟨a', mid, ha, b', rest', hb, ⟨rfl, rfl⟩, rfl⟩ := h
    obtain ⟨hva, rfl⟩ := c.of_decode ha
    obtain ⟨hvb, rfl⟩ := d.of_decode hb
    exact ⟨⟨hva, hvb⟩, (List.append_assoc _ _ _).symm⟩

/-- The same bytes for every value there is. -/
def literal (bytes : Bytes) : Codec Unit :=
  (fixed bytes.length).xmap (fun read => if read = bytes then some () else none)
    (fun _ => bytes) (by
      intro read u h
      split_ifs at h with heq
      exact heq.symm)

@[simp] theorem valid_literal (bytes : Bytes) : (literal bytes).Valid () :=
  ⟨rfl, if_pos rfl⟩

/-- The same bytes in front of every value. -/
def prefixed (bytes : Bytes) (c : Codec α) : Codec α :=
  ((literal bytes).pair c).map (Equiv.punitProd α)

theorem valid_prefixed (bytes : Bytes) : (prefixed bytes c).Valid a ↔ c.Valid a :=
  valid_map.trans ⟨fun h => h.2, fun h => ⟨valid_literal bytes, h⟩⟩

/-! ### Whole packets -/

/-- The value that a packet encodes, with nothing behind it. -/
def decodeAll (c : Codec α) (bytes : Bytes) : Option α :=
  match c.decode bytes with
  | some (a, []) => some a
  | _ => none

theorem decodeAll_eq_some_iff : c.decodeAll bytes = some a ↔ c.Valid a ∧ bytes = c.encode a := by
  have hread : c.decode bytes = some (a, []) ↔ _ := c.decode_eq_some_iff
  rw [List.append_nil] at hread
  rw [← hread, decodeAll]
  split
  · rename_i a' h
    rw [h]
    simp
  · rename_i h
    constructor
    · intro hnone
      cases hnone
    · intro hsome
      exact absurd hsome (h a)

end Codec

end Bytes
