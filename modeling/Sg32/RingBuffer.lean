/-
The ring buffer of recent blocks (`ring_buffer.rs`).

A block is stored at its slot modulo the capacity, and `get` serves the slots
from `head` to `tail` that are still stored.

* `stored_put` — a put changes one position;
* `put_ok` — when `put` does not overflow, and how it moves the window;
* `contents_put` — inside one window of `capacity` slots nothing is evicted.
-/
import Sg32.MerkleProver

namespace Sg32

open Rust

structure SlotData where
  slot : UInt64
  parent_slot : UInt64
  entries : Bytes
  num_transactions : ℕ
  merkle_root : Option Digest
  merkle_tree : Option MerkleTree
  deriving DecidableEq

structure SlotRingBuffer where
  slots : List (Option SlotData)
  capacity : UInt64
  head : UInt64
  tail : UInt64
  length_slots : slots.length = capacity.toNat
  deriving DecidableEq

namespace SlotRingBuffer

def new (capacity : UInt64) : SlotRingBuffer where
  slots := List.replicate capacity.toNat none
  capacity := capacity
  head := 0
  tail := 0
  length_slots := List.length_replicate

/-- `self.slots[(slot % self.capacity) as usize] = Some(slot_data)`. -/
def setSlot (buf : SlotRingBuffer) (slot_data : SlotData) : Checked SlotRingBuffer := do
  let idx ← remU64 slot_data.slot buf.capacity
  if h : idx.toNat < buf.slots.length then
    pure { buf with
      slots := buf.slots.set idx.toNat (some slot_data)
      length_slots := by rw [List.length_set, buf.length_slots] }
  else .error .indexOutOfBounds

/-- `head` after a put. -/
def nextHead (build : Build) (head capacity slot : UInt64) : Checked UInt64 := do
  let limit ← addU64 build head capacity
  if slot ≥ limit then do
    let start ← subU64 build slot capacity
    addU64 build start 1
  else pure head

/-- `tail` after a put. -/
def nextTail (build : Build) (tail slot : UInt64) : Checked UInt64 :=
  if slot ≥ tail then addU64 build slot 1 else pure tail

def put (build : Build) (buf : SlotRingBuffer) (slot_data : SlotData) :
    Checked SlotRingBuffer := do
  let buf ← buf.setSlot slot_data
  let head ← nextHead build buf.head buf.capacity slot_data.slot
  let tail ← nextTail build buf.tail slot_data.slot
  pure { buf with head := head, tail := tail }

def latestSlot (buf : SlotRingBuffer) : Option UInt64 :=
  if buf.tail = 0 then none else some (buf.tail - 1)

/-- `self.tail.saturating_sub(self.head)`. -/
def len (buf : SlotRingBuffer) : ℕ := buf.tail.toNat - buf.head.toNat

def get (buf : SlotRingBuffer) (slot : UInt64) : Checked (Option SlotData) :=
  if slot < buf.head ∨ slot ≥ buf.tail then pure none
  else do
    let idx ← remU64 slot buf.capacity
    let data ← index buf.slots idx.toNat
    pure (data.filter fun data => data.slot = slot)

/-! ### Contents -/

/-- The block stored for a slot, served or not. -/
def stored (buf : SlotRingBuffer) (slot : UInt64) : Option SlotData :=
  (buf.slots[(slot % buf.capacity).toNat]?.join).filter fun data => data.slot = slot

/-- The block served for a slot. -/
def contents (buf : SlotRingBuffer) (slot : UInt64) : Option SlotData :=
  if slot < buf.head ∨ slot ≥ buf.tail then none else buf.stored slot

variable {buf buf' : SlotRingBuffer} {slot : UInt64} {data slot_data : SlotData}

theorem toNat_pos_of_ne_zero {x : UInt64} (h : x ≠ 0) : 0 < x.toNat := by
  refine Nat.pos_of_ne_zero fun hzero => h ?_
  exact UInt64.toNat_inj.mp hzero

theorem idx_lt (hcap : buf.capacity ≠ 0) (slot : UInt64) :
    (slot % buf.capacity).toNat < buf.slots.length := by
  rw [buf.length_slots, UInt64.toNat_mod]
  exact Nat.mod_lt _ (toNat_pos_of_ne_zero hcap)

/-- Reading never panics, and gives the contents. -/
theorem get_eq (hcap : buf.capacity ≠ 0) (slot : UInt64) :
    buf.get slot = .ok (buf.contents slot) := by
  unfold get contents
  split_ifs with hout
  · rfl
  · have hlt := idx_lt hcap slot
    rw [remU64, if_neg hcap, ok_bind, index_of_lt hlt, ok_bind, stored,
      List.getElem?_eq_getElem hlt]
    rfl

theorem stored_of_contents (h : buf.contents slot = some data) : buf.stored slot = some data := by
  unfold contents at h
  split_ifs at h
  exact h

theorem stored_new (capacity slot : UInt64) : (new capacity).stored slot = none := by
  rw [stored, new, List.getElem?_replicate]
  split_ifs <;> rfl

theorem contents_new (capacity slot : UInt64) : (new capacity).contents slot = none := by
  unfold contents
  split_ifs
  · rfl
  · exact stored_new capacity slot

/-! ### What a put does -/

theorem setSlot_ok (hcap : buf.capacity ≠ 0) (slot_data : SlotData) :
    ∃ buf', buf.setSlot slot_data = .ok buf' ∧
      buf'.slots = buf.slots.set (slot_data.slot % buf.capacity).toNat (some slot_data) ∧
      buf'.capacity = buf.capacity ∧ buf'.head = buf.head ∧ buf'.tail = buf.tail := by
  refine ⟨{ buf with
    slots := buf.slots.set (slot_data.slot % buf.capacity).toNat (some slot_data)
    length_slots := by rw [List.length_set, buf.length_slots] }, ?_, rfl, rfl, rfl, rfl⟩
  rw [setSlot, remU64, if_neg hcap, ok_bind, dif_pos (idx_lt hcap _)]
  rfl

theorem put_eq_ok (h : buf.put build slot_data = .ok buf') :
    buf.capacity ≠ 0 ∧ buf'.capacity = buf.capacity ∧
      buf'.slots = buf.slots.set (slot_data.slot % buf.capacity).toNat (some slot_data) := by
  have hcap : buf.capacity ≠ 0 := by
    intro hzero
    rw [put, setSlot, remU64, if_pos hzero] at h
    cases h
  obtain ⟨mid, hmid, hslots, hcapacity, -, -⟩ := setSlot_ok hcap slot_data
  rw [put, hmid, ok_bind] at h
  obtain ⟨head, -, h⟩ := bind_eq_ok.mp h
  obtain ⟨tail, -, h⟩ := bind_eq_ok.mp h
  cases h
  exact ⟨hcap, hcapacity, hslots⟩

/-- A put changes one position: its own slot is stored, and a slot at the same
position no longer is. -/
theorem stored_put (h : buf.put build slot_data = .ok buf') (slot : UInt64) :
    buf'.stored slot =
      if slot % buf.capacity = slot_data.slot % buf.capacity then
        if slot = slot_data.slot then some slot_data else none
      else buf.stored slot := by
  obtain ⟨hcap, hcapacity, hslots⟩ := put_eq_ok h
  have hlt := idx_lt hcap slot_data.slot
  rw [stored, hslots, hcapacity, List.getElem?_set]
  by_cases hidx : slot % buf.capacity = slot_data.slot % buf.capacity
  · rw [if_pos hidx, hidx, if_pos rfl, if_pos hlt, Option.join_some]
    by_cases hslot : slot = slot_data.slot
    · simp [hslot, Option.filter]
    · simp [hslot, Option.filter, Ne.symm hslot]
  · have hne : (slot_data.slot % buf.capacity).toNat ≠ (slot % buf.capacity).toNat :=
      fun heq => hidx (UInt64.toNat_inj.mp heq).symm
    rw [if_neg hidx, if_neg hne, stored]

/-- What is stored after a put is the block put or was stored before. -/
theorem stored_put_cases (h : buf.put build slot_data = .ok buf')
    (hdata : buf'.stored slot = some data) :
    (slot = slot_data.slot ∧ data = slot_data) ∨
      (slot ≠ slot_data.slot ∧ buf.stored slot = some data) := by
  rw [stored_put h] at hdata
  split_ifs at hdata with hidx hslot
  · exact .inl ⟨hslot, (Option.some.inj hdata).symm⟩
  · refine .inr ⟨?_, hdata⟩
    rintro rfl
    exact hidx rfl

theorem toNat_one : (1 : UInt64).toNat = 1 := rfl

theorem nextHead_ok (build : Build) {head capacity slot : UInt64}
    (hroom : head.toNat + capacity.toNat < 2 ^ 64) (hslot : slot.toNat + 1 < 2 ^ 64)
    (hpos : 0 < capacity.toNat) :
    ∃ head', nextHead build head capacity slot = .ok head' ∧
      head'.toNat = max head.toNat (slot.toNat + 1 - capacity.toNat) := by
  obtain ⟨hlimit, hlimit'⟩ := addU64_ok build hroom
  rw [nextHead, hlimit, ok_bind]
  -- the head moves only when the slot is beyond the window
  by_cases hge : slot ≥ head + capacity
  · have hle := UInt64.le_iff_toNat_le.mp hge
    obtain ⟨hstart, hstart'⟩ := subU64_ok build (x := slot) (y := capacity) (by omega)
    obtain ⟨hnext, hnext'⟩ := addU64_ok build (x := slot - capacity) (y := 1)
      (by rw [hstart', toNat_one]; omega)
    rw [if_pos hge, hstart, ok_bind]
    refine ⟨_, hnext, ?_⟩
    rw [hnext', hstart', toNat_one]
    omega
  · have hlt := UInt64.lt_iff_toNat_lt.mp (UInt64.not_le.mp hge)
    rw [if_neg hge]
    refine ⟨head, rfl, ?_⟩
    omega

theorem nextTail_ok (build : Build) (tail : UInt64) {slot : UInt64}
    (hslot : slot.toNat + 1 < 2 ^ 64) :
    ∃ tail', nextTail build tail slot = .ok tail' ∧
      tail'.toNat = max tail.toNat (slot.toNat + 1) := by
  unfold nextTail
  by_cases hge : slot ≥ tail
  · obtain ⟨hnext, hnext'⟩ := addU64_ok build (x := slot) (y := 1) hslot
    have hle := UInt64.le_iff_toNat_le.mp hge
    rw [if_pos hge]
    refine ⟨_, hnext, ?_⟩
    rw [hnext', toNat_one]
    omega
  · have hlt := UInt64.lt_iff_toNat_lt.mp (UInt64.not_le.mp hge)
    rw [if_neg hge]
    refine ⟨tail, rfl, ?_⟩
    omega

/-- Below `u64::MAX` a put returns, and the window never moves back. -/
theorem put_ok (build : Build) (hcap : buf.capacity ≠ 0)
    (hroom : buf.head.toNat + buf.capacity.toNat < 2 ^ 64)
    (hslot : slot_data.slot.toNat + 1 < 2 ^ 64) :
    ∃ buf', buf.put build slot_data = .ok buf' ∧
      buf'.head.toNat = max buf.head.toNat (slot_data.slot.toNat + 1 - buf.capacity.toNat) ∧
      buf'.tail.toNat = max buf.tail.toNat (slot_data.slot.toNat + 1) := by
  obtain ⟨mid, hmid, -, hcapacity, hhead, htail⟩ := setSlot_ok hcap slot_data
  have hpos := toNat_pos_of_ne_zero hcap
  rw [← hcapacity] at hroom hpos ⊢
  rw [← hhead] at hroom ⊢
  rw [← htail]
  obtain ⟨head', hhead', hheadnat⟩ := nextHead_ok build hroom hslot hpos
  obtain ⟨tail', htail', htailnat⟩ := nextTail_ok build mid.tail hslot
  rw [put, hmid, ok_bind, hhead', ok_bind, htail', ok_bind]
  exact ⟨_, rfl, hheadnat, htailnat⟩

/-! ### One window -/

/-- Everything stored lies in the `capacity` slots from `first` on, and the
buffer serves all of it. -/
structure InWindow (first : ℕ) (buf : SlotRingBuffer) : Prop where
  capacity_ne_zero : buf.capacity ≠ 0
  room : buf.head.toNat + buf.capacity.toNat < 2 ^ 64
  head_le : buf.head.toNat ≤ first
  stored : ∀ slot data, buf.stored slot = some data →
    first ≤ slot.toNat ∧ slot.toNat < first + buf.capacity.toNat ∧ slot < buf.tail

theorem inWindow_new {capacity : UInt64} (hcap : capacity ≠ 0) (first : ℕ) :
    InWindow first (new capacity) where
  capacity_ne_zero := hcap
  room := by
    show (0 : UInt64).toNat + capacity.toNat < 2 ^ 64
    have := capacity.toNat_lt
    simpa using this
  head_le := Nat.zero_le first
  stored slot data h := by
    rw [stored_new] at h
    cases h

/-- In its window the buffer serves what it stores. -/
theorem contents_of_inWindow {first : ℕ} (h : InWindow first buf) (slot : UInt64) :
    buf.contents slot = buf.stored slot := by
  cases hstored : buf.stored slot with
  | none =>
    unfold contents
    split_ifs
    · rfl
    · exact hstored
  | some data =>
    obtain ⟨hle, -, htail⟩ := h.stored slot data hstored
    have hhead : ¬ slot < buf.head := by
      rw [UInt64.lt_iff_toNat_lt]
      have := h.head_le
      omega
    rw [contents, if_neg (by simpa [hhead] using htail), hstored]

theorem eq_of_mod_eq {a b n first : ℕ} (hmod : a % n = b % n) (ha : first ≤ a)
    (ha' : a < first + n) (hb : first ≤ b) (hb' : b < first + n) : a = b := by
  have hab : a - b = 0 := Nat.eq_zero_of_dvd_of_lt
    (Nat.dvd_of_mod_eq_zero (Nat.sub_mod_eq_zero_of_mod_eq hmod)) (by omega)
  have hba : b - a = 0 := Nat.eq_zero_of_dvd_of_lt
    (Nat.dvd_of_mod_eq_zero (Nat.sub_mod_eq_zero_of_mod_eq hmod.symm)) (by omega)
  omega

/-- Two slots of one window have different positions, so nothing is overwritten. -/
theorem stored_put_of_inWindow {build : Build} {first : ℕ} (h : InWindow first buf)
    (hput : buf.put build slot_data = .ok buf') (hfirst : first ≤ slot_data.slot.toNat)
    (hlast : slot_data.slot.toNat < first + buf.capacity.toNat) (slot : UInt64) :
    buf'.stored slot = if slot = slot_data.slot then some slot_data else buf.stored slot := by
  rw [stored_put hput]
  by_cases hslot : slot = slot_data.slot
  · rw [hslot, if_pos rfl, if_pos rfl, if_pos rfl]
  rw [if_neg hslot, if_neg hslot]
  split_ifs with hidx
  · cases hold : buf.stored slot with
    | none => rfl
    | some data =>
      obtain ⟨hle, hlt, -⟩ := h.stored slot data hold
      exfalso
      have hmod : slot.toNat % buf.capacity.toNat =
          slot_data.slot.toNat % buf.capacity.toNat := by
        rw [← UInt64.toNat_mod, hidx, UInt64.toNat_mod]
      exact hslot (UInt64.toNat_inj.mp (eq_of_mod_eq hmod hle hlt hfirst hlast))
  · rfl

/-- **Inside one window a put adds its block and evicts nothing.** -/
theorem contents_put (build : Build) (slot_data : SlotData) {first : ℕ} (h : InWindow first buf)
    (hfirst : first ≤ slot_data.slot.toNat)
    (hlast : slot_data.slot.toNat < first + buf.capacity.toNat)
    (hmax : slot_data.slot.toNat + 1 < 2 ^ 64) :
    ∃ buf', buf.put build slot_data = .ok buf' ∧ InWindow first buf' ∧
      buf'.capacity = buf.capacity ∧
      ∀ slot, buf'.contents slot =
        if slot = slot_data.slot then some slot_data else buf.contents slot := by
  obtain ⟨buf', hput, hhead, htail⟩ := put_ok build h.capacity_ne_zero h.room hmax
  obtain ⟨-, hcapacity, -⟩ := put_eq_ok hput
  have hstored := stored_put_of_inWindow h hput hfirst hlast
  -- the new slot is in the window, and so below the new tail
  have hwindow : InWindow first buf' := by
    refine ⟨hcapacity ▸ h.capacity_ne_zero, ?_, ?_, fun slot data hdata => ?_⟩
    · have := h.room
      rw [hcapacity]
      omega
    · have := h.head_le
      omega
    · rw [hcapacity, UInt64.lt_iff_toNat_lt, htail]
      rw [hstored] at hdata
      split_ifs at hdata with hslot
      · subst hslot
        omega
      · obtain ⟨hle, hlt, htail⟩ := h.stored slot data hdata
        rw [UInt64.lt_iff_toNat_lt] at htail
        omega
  refine ⟨buf', hput, hwindow, hcapacity, ?_⟩
  intro slot
  rw [contents_of_inWindow hwindow, contents_of_inWindow h, hstored]

end SlotRingBuffer

end Sg32
