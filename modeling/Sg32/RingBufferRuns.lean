/-
What the ring buffer serves after any sequence of puts.

Slots arrive in any order and share positions modulo the capacity.  A put
always takes its position, also for a slot that the window has left behind, and
then the newer slot that was stored there can no longer be read.

* `putAll_follows` — a run of puts returns, and `Follows` says what is stored
  and where the window is;
* `contents_of_recent` — a slot of the window is served when it was put last
  at its position;
* `putAll_readable_iff` — every recent slot stays readable exactly if no older
  slot is put late at its position.
-/
import Mathlib.Data.List.Induction
import Sg32.RingBuffer

namespace Sg32

open Rust

namespace SlotRingBuffer

/-- The buffer after a sequence of puts. -/
def putAll (build : Build) (buf : SlotRingBuffer) (puts : List SlotData) :
    Checked SlotRingBuffer :=
  puts.foldlM (put build) buf

/-- One past the largest slot put so far. -/
def slotsEnd (puts : List SlotData) : ℕ :=
  puts.foldl (fun last slot_data => max last (slot_data.slot.toNat + 1)) 0

/-- The last put of a slot. -/
def lastPut (puts : List SlotData) (slot : UInt64) : Option SlotData :=
  puts.reverse.find? fun slot_data => slot_data.slot = slot

/-- The last put at the position of a slot. -/
def lastAt (capacity : UInt64) (puts : List SlotData) (slot : UInt64) : Option SlotData :=
  puts.reverse.find? fun slot_data => slot_data.slot % capacity = slot % capacity

theorem slotsEnd_append (puts : List SlotData) (slot_data : SlotData) :
    slotsEnd (puts ++ [slot_data]) = max (slotsEnd puts) (slot_data.slot.toNat + 1) := by
  rw [slotsEnd, List.foldl_append]
  rfl

theorem lt_slotsEnd {puts : List SlotData} {slot_data : SlotData} (h : slot_data ∈ puts) :
    slot_data.slot.toNat < slotsEnd puts := by
  induction puts using List.reverseRecOn with
  | nil => cases h
  | append_singleton puts last ih =>
    rw [slotsEnd_append]
    rcases List.mem_append.mp h with hbefore | hlast
    · have hlt := ih hbefore
      omega
    · rw [List.mem_singleton.mp hlast]
      omega

theorem slotsEnd_lt {puts : List SlotData} {n : ℕ} (hn : 0 < n)
    (h : ∀ slot_data ∈ puts, slot_data.slot.toNat + 1 < n) : slotsEnd puts < n := by
  induction puts using List.reverseRecOn with
  | nil => exact hn
  | append_singleton puts last ih =>
    have hbefore := ih fun slot_data hmem => h slot_data (by simp [hmem])
    have hlast := h last (by simp)
    rw [slotsEnd_append]
    omega

theorem lastAt_append (capacity : UInt64) (puts : List SlotData) (slot_data : SlotData)
    (slot : UInt64) :
    lastAt capacity (puts ++ [slot_data]) slot =
      if slot_data.slot % capacity = slot % capacity then some slot_data
      else lastAt capacity puts slot := by
  rw [lastAt, List.reverse_append, List.reverse_singleton, List.singleton_append, List.find?_cons]
  by_cases h : slot_data.slot % capacity = slot % capacity
  · simp [h]
  · simp [h, lastAt]

/-- What a buffer of this capacity looks like after a sequence of puts. -/
structure Follows (capacity : UInt64) (puts : List SlotData) (buf : SlotRingBuffer) : Prop where
  capacity_eq : buf.capacity = capacity
  stored : ∀ slot, buf.stored slot =
    (lastAt capacity puts slot).filter fun slot_data => slot_data.slot = slot
  head : buf.head.toNat = slotsEnd puts - capacity.toNat
  tail : buf.tail.toNat = slotsEnd puts

variable {build : Build} {capacity : UInt64} {puts : List SlotData} {buf : SlotRingBuffer}

theorem follows_new (capacity : UInt64) : Follows capacity [] (new capacity) where
  capacity_eq := rfl
  stored := stored_new capacity
  head := (Nat.zero_sub _).symm
  tail := rfl

/-- One put. -/
theorem follows_put (build : Build) (hcap : capacity ≠ 0) (h : Follows capacity puts buf)
    (hbound : slotsEnd puts < 2 ^ 64) {slot_data : SlotData}
    (hslot : slot_data.slot.toNat + 1 < 2 ^ 64) :
    ∃ buf', buf.put build slot_data = .ok buf' ∧
      Follows capacity (puts ++ [slot_data]) buf' := by
  have hlt := capacity.toNat_lt
  have hroom : buf.head.toNat + buf.capacity.toNat < 2 ^ 64 := by
    rw [h.head, h.capacity_eq]
    omega
  obtain ⟨buf', hput, hhead, htail⟩ := put_ok build (h.capacity_eq ▸ hcap) hroom hslot
  obtain ⟨-, hcapacity, -⟩ := put_eq_ok hput
  refine ⟨buf', hput, hcapacity.trans h.capacity_eq, ?_, ?_, ?_⟩
  · intro slot
    rw [stored_put hput, lastAt_append, h.capacity_eq]
    -- only the position of the new slot changes hands
    by_cases hidx : slot % capacity = slot_data.slot % capacity
    · rw [if_pos hidx, if_pos hidx.symm]
      by_cases hslot : slot = slot_data.slot
      · simp [hslot, Option.filter]
      · simp [hslot, Option.filter, Ne.symm hslot]
    · rw [if_neg hidx, if_neg (Ne.symm hidx), h.stored]
  · rw [hhead, h.head, h.capacity_eq, slotsEnd_append]
    omega
  · rw [htail, h.tail, slotsEnd_append]

/-- Below `u64::MAX` a run of puts returns. -/
theorem putAll_follows (build : Build) (hcap : capacity ≠ 0)
    (hslots : ∀ slot_data ∈ puts, slot_data.slot.toNat + 1 < 2 ^ 64) :
    ∃ buf, putAll build (new capacity) puts = .ok buf ∧ Follows capacity puts buf := by
  induction puts using List.reverseRecOn with
  | nil => exact ⟨_, rfl, follows_new capacity⟩
  | append_singleton puts slot_data ih =>
    have hbefore : ∀ d ∈ puts, d.slot.toNat + 1 < 2 ^ 64 := fun d hd => hslots d (by simp [hd])
    obtain ⟨buf, hrun, hfollows⟩ := ih hbefore
    obtain ⟨buf', hput, hfollows'⟩ := follows_put build hcap hfollows
      (slotsEnd_lt (by decide) hbefore) (hslots slot_data (by simp))
    rw [putAll] at hrun
    exact ⟨buf', foldlM_concat_eq_ok.mpr ⟨buf, hrun, hput⟩, hfollows'⟩

/-! ### Reading recent slots -/

/-- A slot that was put and is still in the window. -/
def Recent (capacity : UInt64) (puts : List SlotData) (slot : UInt64) : Prop :=
  (∃ slot_data ∈ puts, slot_data.slot = slot) ∧ slotsEnd puts ≤ slot.toNat + capacity.toNat

theorem contents_of_inside (h : Follows capacity puts buf) {slot : UInt64}
    (hlt : slot.toNat < slotsEnd puts) (hwindow : slotsEnd puts ≤ slot.toNat + capacity.toNat) :
    buf.contents slot =
      (lastAt capacity puts slot).filter fun slot_data => slot_data.slot = slot := by
  have hhead := h.head
  have htail := h.tail
  have hinside : ¬(slot < buf.head ∨ slot ≥ buf.tail) := by
    rw [ge_iff_le, UInt64.lt_iff_toNat_lt, UInt64.le_iff_toNat_le]
    omega
  rw [contents, if_neg hinside, h.stored]

theorem contents_of_outside (h : Follows capacity puts buf) {slot : UInt64}
    (hout : slotsEnd puts ≤ slot.toNat ∨ slot.toNat + capacity.toNat < slotsEnd puts) :
    buf.contents slot = none := by
  have hhead := h.head
  have htail := h.tail
  refine if_pos ?_
  rw [ge_iff_le, UInt64.lt_iff_toNat_lt, UInt64.le_iff_toNat_le]
  omega

theorem contents_of_recent (h : Follows capacity puts buf) {slot : UInt64}
    (hrecent : Recent capacity puts slot) :
    buf.contents slot =
      (lastAt capacity puts slot).filter fun slot_data => slot_data.slot = slot := by
  obtain ⟨⟨slot_data, hmem, rfl⟩, hwindow⟩ := hrecent
  exact contents_of_inside h (lt_slotsEnd hmem) hwindow

/-- The last put at a position, and the puts after it. -/
theorem lastAt_eq_some_iff {slot : UInt64} {slot_data : SlotData} :
    lastAt capacity puts slot = some slot_data ↔
      slot_data.slot % capacity = slot % capacity ∧
        ∃ before after, puts = before ++ slot_data :: after ∧
          ∀ d ∈ after, d.slot % capacity ≠ slot % capacity := by
  rw [lastAt, List.find?_eq_some_iff_append]
  simp only [decide_eq_true_eq, Bool.not_eq_true', decide_eq_false_iff_not]
  refine and_congr_right fun _ => ?_
  constructor
  · rintro ⟨after, before, hsplit, hafter⟩
    refine ⟨before.reverse, after.reverse, ?_, by simpa using hafter⟩
    rw [← List.reverse_reverse puts, hsplit]
    simp
  · rintro ⟨before, after, rfl, hafter⟩
    exact ⟨after.reverse, before.reverse, by simp, by simpa using hafter⟩

/-- When the last put at its position is the slot's own, it is its last put. -/
theorem lastPut_of_lastAt {slot : UInt64} {slot_data : SlotData}
    (h : lastAt capacity puts slot = some slot_data) (hslot : slot_data.slot = slot) :
    lastPut puts slot = some slot_data := by
  obtain ⟨-, before, after, rfl, hafter⟩ := lastAt_eq_some_iff.mp h
  rw [lastPut, List.find?_eq_some_iff_append]
  refine ⟨by simpa using hslot, after.reverse, before.reverse, by simp, ?_⟩
  intro d hd
  have hne := hafter d (by simpa using hd)
  simp only [Bool.not_eq_true', decide_eq_false_iff_not]
  rintro rfl
  exact hne rfl

theorem exists_lastPut {slot : UInt64} (h : ∃ slot_data ∈ puts, slot_data.slot = slot) :
    ∃ slot_data, lastPut puts slot = some slot_data := by
  obtain ⟨slot_data, hmem, hslot⟩ := h
  rw [← Option.isSome_iff_exists, lastPut, List.find?_isSome]
  exact ⟨slot_data, by simpa using hmem, by simpa using hslot⟩

/-- A recent slot is served exactly if no other slot took its position. -/
theorem contents_eq_lastPut_iff (h : Follows capacity puts buf) {slot : UInt64}
    (hrecent : Recent capacity puts slot) :
    buf.contents slot = lastPut puts slot ↔
      ∀ slot_data, lastAt capacity puts slot = some slot_data → slot_data.slot = slot := by
  rw [contents_of_recent h hrecent]
  obtain ⟨own, hown⟩ := exists_lastPut hrecent.1
  constructor
  · intro heq slot_data hlast
    rw [hlast, hown, Option.filter_eq_some_iff] at heq
    obtain ⟨hsame, hslot⟩ := heq
    rw [Option.some.inj hsame]
    exact of_decide_eq_true hslot
  · intro hlast
    -- some put is at this position, namely the one of the slot
    cases hat : lastAt capacity puts slot with
    | none =>
      obtain ⟨slot_data, hmem, rfl⟩ := hrecent.1
      rw [lastAt, List.find?_eq_none] at hat
      exact absurd (decide_eq_true rfl) (hat slot_data (by simpa using hmem))
    | some slot_data =>
      have hslot := hlast slot_data hat
      rw [lastPut_of_lastAt hat hslot, Option.filter_eq_some_iff]
      exact ⟨rfl, decide_eq_true hslot⟩

/-- Every recent slot that was put can be read. -/
def RecentReadable (capacity : UInt64) (puts : List SlotData) (buf : SlotRingBuffer) : Prop :=
  ∀ slot, Recent capacity puts slot → buf.get slot = .ok (lastPut puts slot)

/-- No recent slot is followed by a put at its position of a slot at least one
capacity older, unless it is put again after that. -/
def NoLatePut (capacity : UInt64) (puts : List SlotData) : Prop :=
  ∀ before late after, puts = before ++ late :: after → ∀ slot_data ∈ before,
    slotsEnd puts ≤ slot_data.slot.toNat + capacity.toNat →
    late.slot.toNat + capacity.toNat ≤ slot_data.slot.toNat →
    late.slot % capacity = slot_data.slot % capacity →
    ∃ again ∈ after, again.slot = slot_data.slot

/-- Two slots at one position are a capacity apart. -/
theorem add_le_of_mod_eq {a b n : ℕ} (hmod : a % n = b % n) (hne : a ≠ b) (hlt : a < b + n) :
    a + n ≤ b := by
  by_contra hnot
  refine hne ?_
  rcases Nat.le_total a b with hle | hle
  · exact eq_of_mod_eq hmod le_rfl (by omega) hle (by omega)
  · exact eq_of_mod_eq hmod hle hlt le_rfl (by omega)

/-- Whoever takes the position of `late` last is `late` or comes after it. -/
theorem exists_lastAt (hidx : slot_data.slot % capacity = slot % capacity)
    (before after : List SlotData) :
    ∃ last ∈ slot_data :: after,
      lastAt capacity (before ++ slot_data :: after) slot = some last := by
  have hfound : (lastAt capacity (slot_data :: after) slot).isSome := by
    rw [lastAt, List.find?_isSome]
    exact ⟨slot_data, by simp, decide_eq_true hidx⟩
  obtain ⟨last, hlast⟩ := Option.isSome_iff_exists.mp hfound
  refine ⟨last, List.mem_reverse.mp (List.mem_of_find?_eq_some hlast), ?_⟩
  rw [lastAt] at hlast
  rw [lastAt, List.reverse_append, List.find?_append, hlast]
  rfl

theorem recentReadable_iff (hcap : capacity ≠ 0) (h : Follows capacity puts buf) :
    RecentReadable capacity puts buf ↔ NoLatePut capacity puts := by
  have hget : RecentReadable capacity puts buf ↔ ∀ slot, Recent capacity puts slot →
      ∀ slot_data, lastAt capacity puts slot = some slot_data → slot_data.slot = slot := by
    refine forall_congr' fun slot => forall_congr' fun hrecent => ?_
    rw [get_eq (h.capacity_eq ▸ hcap), ← contents_eq_lastPut_iff h hrecent]
    exact ⟨Except.ok.inj, congrArg _⟩
  rw [hget]
  constructor
  · -- the last put at the position of `slot_data` is not before `late`
    intro hlast before late after hsplit slot_data hmem hwindow hold hidx
    have hrecent : Recent capacity puts slot_data.slot :=
      ⟨⟨slot_data, by rw [hsplit]; simp [hmem], rfl⟩, hwindow⟩
    have hpos := toNat_pos_of_ne_zero hcap
    by_contra hnone
    push Not at hnone
    obtain ⟨other, hin, hother⟩ := exists_lastAt hidx before after
    rw [← hsplit] at hother
    have hslot := hlast _ hrecent other hother
    rcases List.mem_cons.mp hin with rfl | hafter
    · rw [hslot] at hold
      omega
    · exact hnone other hafter hslot
  · intro hlate slot hrecent last hlast
    obtain ⟨hidx, before, after, hsplit, hafter⟩ := lastAt_eq_some_iff.mp hlast
    by_contra hne
    obtain ⟨⟨slot_data, hmem, rfl⟩, hwindow⟩ := hrecent
    -- the slot itself was put before the last put at its position
    have hbefore : slot_data ∈ before := by
      rw [hsplit] at hmem
      rcases List.mem_append.mp hmem with hbefore | hrest
      · exact hbefore
      · rcases List.mem_cons.mp hrest with rfl | hmem'
        · exact absurd rfl hne
        · exact absurd rfl (hafter slot_data hmem')
    have hlt : last.slot.toNat < slotsEnd puts := lt_slotsEnd (by rw [hsplit]; simp)
    have hmod : last.slot.toNat % capacity.toNat = slot_data.slot.toNat % capacity.toNat := by
      rw [← UInt64.toNat_mod, hidx, UInt64.toNat_mod]
    have hold := add_le_of_mod_eq hmod (fun heq => hne (UInt64.toNat_inj.mp heq)) (by omega)
    obtain ⟨again, hagain, hslot⟩ := hlate before last after hsplit slot_data hbefore hwindow hold
      hidx
    exact hafter again hagain (by rw [hslot])

/-- **Recent slots stay readable** exactly if no older slot is put late. -/
theorem putAll_readable_iff (build : Build) {capacity : UInt64} (hcap : capacity ≠ 0)
    {puts : List SlotData}
    (hslots : ∀ slot_data ∈ puts, slot_data.slot.toNat + 1 < 2 ^ 64) :
    ∃ buf, putAll build (new capacity) puts = .ok buf ∧
      (RecentReadable capacity puts buf ↔ NoLatePut capacity puts) := by
  obtain ⟨buf, hrun, hfollows⟩ := putAll_follows build hcap hslots
  exact ⟨buf, hrun, recentReadable_iff hcap hfollows⟩

/-- A block without transactions. -/
def emptyBlock (slot : UInt64) : SlotData where
  slot := slot
  parent_slot := 0
  entries := []
  num_transactions := 0
  merkle_root := none
  merkle_tree := none

theorem putAll_readable_sample : ∃ buf,
    putAll .debug (new 4) [emptyBlock 5, emptyBlock 7] = .ok buf ∧
      (RecentReadable 4 [emptyBlock 5, emptyBlock 7] buf ↔
        NoLatePut 4 [emptyBlock 5, emptyBlock 7]) :=
  putAll_readable_iff .debug (by decide) (by decide)

/-- Slot 1 arrives after slot 5 in a buffer of four. -/
theorem putAll_late : ¬ ∀ (build : Build) (capacity : UInt64) (puts : List SlotData),
    capacity ≠ 0 → (∀ slot_data ∈ puts, slot_data.slot.toNat + 1 < 2 ^ 64) →
      ∃ buf, putAll build (new capacity) puts = .ok buf ∧
        RecentReadable capacity puts buf := by
  intro h
  obtain ⟨buf, hrun, hreadable⟩ := h .debug 4 [emptyBlock 5, emptyBlock 1] (by decide) (by decide)
  have hget : (putAll .debug (new 4) [emptyBlock 5, emptyBlock 1] >>= fun buf => buf.get 5) =
      .ok none := by decide +kernel
  rw [hrun, ok_bind, hreadable 5 ⟨⟨emptyBlock 5, by simp, rfl⟩, by decide⟩] at hget
  exact absurd hget (by decide +kernel)

end SlotRingBuffer

end Sg32
