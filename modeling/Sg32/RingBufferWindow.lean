/-
The window of the ring buffer after any sequence of puts.

The window ends with the largest slot put and is at most one capacity long.
What is read lies in it, but not every slot of it can be read, although `len`
counts them all.

* `putAll_window` — a read is the last put of its slot, which is recent;
* `putAll_len_iff` — `len` counts the stored blocks exactly if the window is
  full;
* `put_debug_returns_iff` — when the arithmetic of a put stays in range;
* `neverOverflows_iff` — it always does exactly if no slot is `u64::MAX`.
-/
import Mathlib.Data.Set.Card
import Mathlib.Order.Interval.Finset.Nat
import Sg32.RingBufferRuns

namespace Sg32

open Rust

namespace SlotRingBuffer

variable {build : Build} {capacity : UInt64} {puts : List SlotData} {buf : SlotRingBuffer}
  {slot : UInt64} {slot_data : SlotData}

/-! ### Reads -/

theorem Follows.bounds (h : Follows capacity puts buf) :
    buf.head.toNat ≤ buf.tail.toNat ∧ buf.tail.toNat ≤ buf.head.toNat + capacity.toNat := by
  rw [h.head, h.tail]
  omega

theorem slotsEnd_eq (hmem : slot_data ∈ puts)
    (hmax : ∀ other ∈ puts, other.slot ≤ slot_data.slot) :
    slotsEnd puts = slot_data.slot.toNat + 1 := by
  have hlt := lt_slotsEnd hmem
  have hle : slotsEnd puts < slot_data.slot.toNat + 2 := by
    refine slotsEnd_lt (Nat.succ_pos _) fun other hmem' => ?_
    have hslot := UInt64.le_iff_toNat_le.mp (hmax other hmem')
    omega
  omega

theorem latestSlot_of_tail (htail : buf.tail.toNat = slot.toNat + 1) :
    buf.latestSlot = some slot := by
  have hne : buf.tail ≠ 0 := by
    intro hzero
    rw [hzero] at htail
    cases htail
  have hone : (1 : UInt64) ≤ buf.tail := by
    rw [UInt64.le_iff_toNat_le, htail]
    exact Nat.le_add_left 1 _
  rw [latestSlot, if_neg hne, Option.some.injEq, ← UInt64.toNat_inj,
    UInt64.toNat_sub_of_le _ _ hone, htail]
  rfl

/-- The latest slot is the largest one put. -/
theorem latestSlot_of_follows (h : Follows capacity puts buf) :
    buf.latestSlot = (puts.map SlotData.slot).max? := by
  cases hmax : (puts.map SlotData.slot).max? with
  | none =>
    obtain rfl : puts = [] := List.map_eq_nil_iff.mp (List.max?_eq_none_iff.mp hmax)
    have hzero : buf.tail = 0 := UInt64.toNat_inj.mp h.tail
    rw [latestSlot, if_pos hzero]
  | some slot =>
    obtain ⟨hmem, hle⟩ := List.max?_eq_some_iff.mp hmax
    obtain ⟨slot_data, hdata, rfl⟩ := List.mem_map.mp hmem
    refine latestSlot_of_tail (h.tail.trans (slotsEnd_eq hdata fun other hother => ?_))
    exact hle _ (List.mem_map_of_mem hother)

/-- What is served is the last put at its position, inside the window. -/
theorem contents_eq_some_iff (h : Follows capacity puts buf) :
    buf.contents slot = some slot_data ↔
      slot.toNat < slotsEnd puts ∧ slotsEnd puts ≤ slot.toNat + capacity.toNat ∧
        lastAt capacity puts slot = some slot_data ∧ slot_data.slot = slot := by
  by_cases hinside : slot.toNat < slotsEnd puts ∧ slotsEnd puts ≤ slot.toNat + capacity.toNat
  · obtain ⟨hlt, hwindow⟩ := hinside
    rw [contents_of_inside h hlt hwindow, Option.filter_eq_some_iff, decide_eq_true_iff]
    exact ⟨fun hlast => ⟨hlt, hwindow, hlast⟩, fun hlast => hlast.2.2⟩
  · have hout : slotsEnd puts ≤ slot.toNat ∨ slot.toNat + capacity.toNat < slotsEnd puts := by
      omega
    rw [contents_of_outside h hout]
    refine iff_of_false nofun ?_
    rintro ⟨hlt, hwindow, -⟩
    exact hinside ⟨hlt, hwindow⟩

/-- **Reads are never stale**: after any puts, the window ends with the largest
slot and is no longer than the capacity, and a read gives the last put of its
slot, which is one of the last `capacity` slots. -/
theorem putAll_window (build : Build) {capacity : UInt64} (hcap : capacity ≠ 0)
    {puts : List SlotData}
    (hslots : ∀ slot_data ∈ puts, slot_data.slot.toNat + 1 < 2 ^ 64) :
    ∃ buf, putAll build (new capacity) puts = .ok buf ∧
      buf.head.toNat ≤ buf.tail.toNat ∧ buf.tail.toNat ≤ buf.head.toNat + capacity.toNat ∧
      buf.latestSlot = (puts.map SlotData.slot).max? ∧
      ∀ slot slot_data, buf.get slot = .ok (some slot_data) →
        lastPut puts slot = some slot_data ∧
          ∃ latest, buf.latestSlot = some latest ∧ slot ≤ latest ∧
            latest.toNat < slot.toNat + capacity.toNat := by
  obtain ⟨buf, hrun, h⟩ := putAll_follows build hcap hslots
  refine ⟨buf, hrun, h.bounds.1, h.bounds.2, latestSlot_of_follows h, ?_⟩
  intro slot slot_data hget
  rw [get_eq (h.capacity_eq ▸ hcap), Except.ok.injEq, contents_eq_some_iff h] at hget
  obtain ⟨hlt, hwindow, hlast, hslot⟩ := hget
  refine ⟨lastPut_of_lastAt hlast hslot, ?_⟩
  cases hlatest : buf.latestSlot with
  | none =>
    -- something was put
    rw [latestSlot_of_follows h, List.max?_eq_none_iff, List.map_eq_nil_iff] at hlatest
    subst hlatest
    cases hlast
  | some latest =>
    rw [latestSlot_of_follows h, List.max?_eq_some_iff] at hlatest
    obtain ⟨hmem, hmax⟩ := hlatest
    obtain ⟨largest, hlargest, rfl⟩ := List.mem_map.mp hmem
    have hend := slotsEnd_eq hlargest fun other hother => hmax _ (List.mem_map_of_mem hother)
    refine ⟨_, rfl, ?_, by omega⟩
    rw [UInt64.le_iff_toNat_le]
    omega

theorem putAll_window_sample : ∃ buf,
    putAll .debug (new 4) [emptyBlock 5, emptyBlock 7] = .ok buf ∧
      buf.head.toNat ≤ buf.tail.toNat ∧ buf.tail.toNat ≤ buf.head.toNat + (4 : UInt64).toNat ∧
      buf.latestSlot = ([emptyBlock 5, emptyBlock 7].map SlotData.slot).max? ∧
      ∀ slot slot_data, buf.get slot = .ok (some slot_data) →
        lastPut [emptyBlock 5, emptyBlock 7] slot = some slot_data ∧
          ∃ latest, buf.latestSlot = some latest ∧ slot ≤ latest ∧
            latest.toNat < slot.toNat + (4 : UInt64).toNat :=
  putAll_window .debug (by decide) (by decide)

/-! ### What `len` counts -/

/-- The slots that can be read. -/
def readable (buf : SlotRingBuffer) : Set UInt64 :=
  {slot | ∃ slot_data, buf.get slot = .ok (some slot_data)}

/-- The slots from `head` to `tail`. -/
def window (buf : SlotRingBuffer) : Set UInt64 :=
  {slot | buf.head.toNat ≤ slot.toNat ∧ slot.toNat < buf.tail.toNat}

theorem image_window (buf : SlotRingBuffer) :
    UInt64.toNat '' buf.window = Set.Ico buf.head.toNat buf.tail.toNat := by
  ext n
  constructor
  · rintro ⟨slot, hslot, rfl⟩
    exact hslot
  · rintro ⟨hle, hlt⟩
    have hn : (UInt64.ofNat n).toNat = n :=
      UInt64.toNat_ofNat_of_lt' (lt_trans hlt buf.tail.toNat_lt)
    exact ⟨.ofNat n, ⟨by rwa [hn], by rwa [hn]⟩, hn⟩

theorem toNat_injective : Function.Injective UInt64.toNat := fun _ _ => UInt64.toNat_inj.mp

theorem finite_window (buf : SlotRingBuffer) : buf.window.Finite := by
  refine Set.Finite.of_finite_image ?_ toNat_injective.injOn
  rw [image_window]
  exact Set.finite_Ico _ _

/-- `len` is the size of the window. -/
theorem ncard_window (buf : SlotRingBuffer) : buf.window.ncard = buf.len := by
  rw [← Set.ncard_image_of_injective buf.window toNat_injective, image_window,
    ← Finset.coe_Ico, Set.ncard_coe_finset, Nat.card_Ico, len]

theorem mem_readable_iff (hcap : buf.capacity ≠ 0) :
    slot ∈ buf.readable ↔ ∃ slot_data, buf.contents slot = some slot_data := by
  simp only [readable, Set.mem_ofPred_eq, get_eq hcap, Except.ok.injEq]

theorem readable_subset (hcap : buf.capacity ≠ 0) : buf.readable ⊆ buf.window := by
  intro slot hslot
  obtain ⟨slot_data, hdata⟩ := (mem_readable_iff hcap).mp hslot
  unfold contents at hdata
  split_ifs at hdata with hout
  rw [ge_iff_le, UInt64.lt_iff_toNat_lt, UInt64.le_iff_toNat_le, not_or] at hout
  exact ⟨by omega, by omega⟩

/-- `len` counts the slots that can be read when they fill the window. -/
theorem len_eq_ncard_iff (hcap : buf.capacity ≠ 0) :
    buf.len = buf.readable.ncard ↔ buf.window ⊆ buf.readable := by
  rw [← ncard_window]
  constructor
  · intro heq
    exact (Set.eq_of_subset_of_ncard_le (readable_subset hcap) heq.le buf.finite_window).ge
  · intro hsub
    rw [Set.Subset.antisymm hsub (readable_subset hcap)]

/-- Each of the last `capacity` slots was put. -/
def EachPut (capacity : UInt64) (puts : List SlotData) : Prop :=
  ∀ slot : UInt64, slot.toNat < slotsEnd puts → slotsEnd puts ≤ slot.toNat + capacity.toNat →
    ∃ slot_data ∈ puts, slot_data.slot = slot

theorem window_subset_readable_iff (hcap : capacity ≠ 0) (h : Follows capacity puts buf) :
    buf.window ⊆ buf.readable ↔ EachPut capacity puts ∧ NoLatePut capacity puts := by
  have hcap' : buf.capacity ≠ 0 := h.capacity_eq ▸ hcap
  have hhead := h.head
  have htail := h.tail
  rw [← recentReadable_iff hcap h]
  constructor
  · intro hsub
    have hlast : ∀ slot : UInt64, slot.toNat < slotsEnd puts →
        slotsEnd puts ≤ slot.toNat + capacity.toNat →
        ∃ slot_data, buf.contents slot = some slot_data ∧ lastPut puts slot = some slot_data := by
      intro slot hlt hwindow
      have hin : slot ∈ buf.window := ⟨by omega, by omega⟩
      obtain ⟨slot_data, hdata⟩ := (mem_readable_iff hcap').mp (hsub hin)
      obtain ⟨-, -, hat, hslot⟩ := (contents_eq_some_iff h).mp hdata
      exact ⟨slot_data, hdata, lastPut_of_lastAt hat hslot⟩
    constructor
    · intro slot hlt hwindow
      obtain ⟨slot_data, -, hput⟩ := hlast slot hlt hwindow
      rw [lastPut] at hput
      have hslot := List.find?_some hput
      exact ⟨slot_data, List.mem_reverse.mp (List.mem_of_find?_eq_some hput),
        of_decide_eq_true hslot⟩
    · rintro slot ⟨⟨slot_data, hmem, rfl⟩, hwindow⟩
      obtain ⟨last, hdata, hput⟩ := hlast _ (lt_slotsEnd hmem) hwindow
      rw [get_eq hcap', hdata, hput]
  · rintro ⟨heach, hreadable⟩ slot ⟨hle, hlt⟩
    have hput := heach slot (by omega) (by omega)
    obtain ⟨slot_data, hlast⟩ := exists_lastPut hput
    exact ⟨slot_data, (hreadable slot ⟨hput, by omega⟩).trans (congrArg _ hlast)⟩

/-- **When `len` counts the stored blocks**: each of the last `capacity` slots
was put, and no older slot was put late. -/
theorem putAll_len_iff (build : Build) {capacity : UInt64} (hcap : capacity ≠ 0)
    {puts : List SlotData}
    (hslots : ∀ slot_data ∈ puts, slot_data.slot.toNat + 1 < 2 ^ 64) :
    ∃ buf, putAll build (new capacity) puts = .ok buf ∧
      (buf.len = buf.readable.ncard ↔ EachPut capacity puts ∧ NoLatePut capacity puts) := by
  obtain ⟨buf, hrun, h⟩ := putAll_follows build hcap hslots
  refine ⟨buf, hrun, ?_⟩
  rw [len_eq_ncard_iff (h.capacity_eq ▸ hcap), window_subset_readable_iff hcap h]

theorem putAll_len_sample : ∃ buf,
    putAll .debug (new 2) [emptyBlock 1, emptyBlock 0] = .ok buf ∧
      (buf.len = buf.readable.ncard ↔ EachPut 2 [emptyBlock 1, emptyBlock 0] ∧
        NoLatePut 2 [emptyBlock 1, emptyBlock 0]) :=
  putAll_len_iff .debug (by decide) (by decide)

/-- The first block is far from slot 0. -/
theorem putAll_len_sparse : ¬ ∀ (build : Build) (capacity : UInt64) (puts : List SlotData),
    capacity ≠ 0 → (∀ slot_data ∈ puts, slot_data.slot.toNat + 1 < 2 ^ 64) →
      ∃ buf, putAll build (new capacity) puts = .ok buf ∧ buf.len = buf.readable.ncard := by
  intro h
  obtain ⟨buf, hrun, hlen⟩ := h .debug 500 [emptyBlock 1000] (by decide) (by decide)
  obtain ⟨buf', hrun', hfollows⟩ : ∃ buf', putAll .debug (new 500) [emptyBlock 1000] = .ok buf' ∧
      Follows 500 [emptyBlock 1000] buf' := putAll_follows .debug (by decide) (by decide)
  obtain rfl : buf = buf' := Except.ok.inj (hrun.symm.trans hrun')
  rw [len_eq_ncard_iff (hfollows.capacity_eq ▸ by decide),
    window_subset_readable_iff (by decide) hfollows] at hlen
  -- slot 999 is in the window, and was never put
  obtain ⟨slot_data, hmem, hslot⟩ := hlen.1 999 (by decide) (by decide)
  rw [List.mem_singleton.mp hmem] at hslot
  exact absurd hslot (by decide)

/-! ### Overflow -/

/-- Every sum and difference that `put` computes for this slot is in range. -/
structure PutFits (buf : SlotRingBuffer) (slot : UInt64) : Prop where
  limit : buf.head.toNat + buf.capacity.toNat < 2 ^ 64
  head : buf.head.toNat + buf.capacity.toNat ≤ slot.toNat →
    buf.capacity.toNat ≤ slot.toNat ∧ slot.toNat - buf.capacity.toNat + 1 < 2 ^ 64
  tail : buf.tail.toNat ≤ slot.toNat → slot.toNat + 1 < 2 ^ 64

theorem addU64_debug_returns_iff {x y : UInt64} :
    Returns (addU64 .debug x y) ↔ x.toNat + y.toNat < 2 ^ 64 := by
  constructor
  · rintro ⟨sum, hsum⟩
    by_contra hover
    rw [addU64, Build.check_debug_of_not hover] at hsum
    cases hsum
  · intro h
    exact ⟨_, (addU64_ok .debug h).1⟩

theorem nextTail_debug_returns_iff {tail slot : UInt64} :
    Returns (nextTail .debug tail slot) ↔
      (tail.toNat ≤ slot.toNat → slot.toNat + 1 < 2 ^ 64) := by
  unfold nextTail
  split_ifs with hge
  · rw [addU64_debug_returns_iff, toNat_one]
    exact ⟨fun h _ => h, fun h => h (UInt64.le_iff_toNat_le.mp hge)⟩
  · exact ⟨fun _ h => absurd (UInt64.le_iff_toNat_le.mpr h) hge, fun _ => returns_pure _⟩

theorem nextHead_debug_returns_iff {head capacity : UInt64} (hpos : 0 < capacity.toNat)
    (slot : UInt64) :
    Returns (nextHead .debug head capacity slot) ↔ head.toNat + capacity.toNat < 2 ^ 64 := by
  rw [nextHead, returns_bind]
  constructor
  · rintro ⟨limit, hlimit, -⟩
    exact addU64_debug_returns_iff.mp ⟨limit, hlimit⟩
  · intro hroom
    obtain ⟨hlimit, hlimit'⟩ := addU64_ok .debug hroom
    refine ⟨_, hlimit, ?_⟩
    -- beyond the window the slot is at least the capacity
    split_ifs with hge
    · have hle := UInt64.le_iff_toNat_le.mp hge
      have hlt := slot.toNat_lt
      obtain ⟨hstart, hstart'⟩ := subU64_ok .debug (x := slot) (y := capacity) (by omega)
      rw [hstart, ok_bind, addU64_debug_returns_iff, hstart', toNat_one]
      omega
    · exact returns_pure _

/-- A put of a debug build panics exactly when its arithmetic overflows. -/
theorem put_debug_returns_iff (hcap : buf.capacity ≠ 0) :
    Returns (buf.put .debug slot_data) ↔ PutFits buf slot_data.slot := by
  obtain ⟨mid, hmid, -, hcapacity, hhead, htail⟩ := setSlot_ok hcap slot_data
  have hpos := toNat_pos_of_ne_zero hcap
  rw [put, hmid, ok_bind, returns_bind]
  constructor
  · rintro ⟨head, hnext, hrest⟩
    obtain ⟨tail, hnext', -⟩ := returns_bind.mp hrest
    rw [hhead, hcapacity] at hnext
    rw [htail] at hnext'
    have hlimit := (nextHead_debug_returns_iff hpos _).mp ⟨head, hnext⟩
    have hlt := slot_data.slot.toNat_lt
    exact ⟨hlimit, fun hge => by omega, nextTail_debug_returns_iff.mp ⟨tail, hnext'⟩⟩
  · intro h
    obtain ⟨head, hnext⟩ := (nextHead_debug_returns_iff hpos slot_data.slot).mpr h.limit
    obtain ⟨tail, hnext'⟩ := nextTail_debug_returns_iff.mpr h.tail
    rw [← hhead, ← hcapacity] at hnext
    rw [← htail] at hnext'
    exact ⟨head, hnext, returns_bind.mpr ⟨tail, hnext', returns_pure _⟩⟩

/-- In a run of puts every one fits, and none moves `tail` back. -/
def NeverOverflows (build : Build) (capacity : UInt64) (puts : List SlotData) : Prop :=
  ∀ before slot_data after, puts = before ++ slot_data :: after →
    ∀ buf, putAll build (new capacity) before = .ok buf →
      PutFits buf slot_data.slot ∧
        ∀ buf', buf.put build slot_data = .ok buf' → buf.tail ≤ buf'.tail

/-- A put of an ordinary slot fits. -/
theorem putFits_of_follows (h : Follows capacity puts buf) (hbound : slotsEnd puts < 2 ^ 64)
    (hslot : slot.toNat + 1 < 2 ^ 64) : PutFits buf slot := by
  have hhead := h.head
  have hlt := capacity.toNat_lt
  constructor
  · rw [hhead, h.capacity_eq]
    omega
  · rw [hhead, h.capacity_eq]
    omega
  · exact fun _ => hslot

/-- **When puts never overflow**: no slot is `u64::MAX`. -/
theorem neverOverflows_iff (build : Build) {capacity : UInt64} (hcap : capacity ≠ 0)
    (puts : List SlotData) :
    NeverOverflows build capacity puts ↔
      ∀ slot_data ∈ puts, slot_data.slot.toNat + 1 < 2 ^ 64 := by
  constructor
  · intro h
    by_contra hmax
    push Not at hmax
    -- before the first such put everything is ordinary
    obtain ⟨before, first, after, hsplit, hlarge, hbefore⟩ := exists_first_of_mem hmax
    have hsmall : ∀ d ∈ before, d.slot.toNat + 1 < 2 ^ 64 := fun d hd =>
      Nat.not_le.mp (hbefore d hd)
    obtain ⟨buf, hrun, hfollows⟩ := putAll_follows build hcap hsmall
    have hend := slotsEnd_lt (by decide) hsmall
    have htail : buf.tail.toNat ≤ first.slot.toNat := by
      rw [hfollows.tail]
      omega
    have hfits := (h before first after hsplit buf hrun).1.tail htail
    exact absurd hfits (Nat.not_lt.mpr hlarge)
  · rintro hslots before slot_data after rfl buf hrun
    have hsmall : ∀ d ∈ before, d.slot.toNat + 1 < 2 ^ 64 := fun d hd => hslots d (by simp [hd])
    have hslot := hslots slot_data (by simp)
    obtain ⟨buf₀, hrun₀, hfollows⟩ := putAll_follows build hcap hsmall
    obtain rfl : buf = buf₀ := Except.ok.inj (hrun.symm.trans hrun₀)
    have hend := slotsEnd_lt (by decide) hsmall
    have hfits := putFits_of_follows hfollows hend hslot
    refine ⟨hfits, fun buf' hput => ?_⟩
    obtain ⟨buf₁, hput₁, -, htail⟩ := put_ok build (hfollows.capacity_eq ▸ hcap) hfits.limit hslot
    obtain rfl : buf' = buf₁ := Except.ok.inj (hput.symm.trans hput₁)
    rw [UInt64.le_iff_toNat_le, htail]
    exact Nat.le_max_left _ _

theorem neverOverflows_sample : NeverOverflows .debug 4 [emptyBlock 5, emptyBlock 1] ↔
    ∀ slot_data ∈ [emptyBlock 5, emptyBlock 1], slot_data.slot.toNat + 1 < 2 ^ 64 :=
  neverOverflows_iff .debug (by decide) _

/-- A block of slot `u64::MAX`. -/
theorem put_overflows : ¬ ∀ (build : Build) (capacity : UInt64) (puts : List SlotData),
    capacity ≠ 0 → NeverOverflows build capacity puts := by
  intro h
  have hfits := (h .debug 4 [emptyBlock 0xFFFFFFFFFFFFFFFF] (by decide) [] _ [] rfl (new 4) rfl).1
  exact absurd (hfits.tail (by decide)) (by decide)

end SlotRingBuffer

end Sg32
