/-
The latest slot (`process_shred` in `main.rs`, `rpc_server.rs`).

Three records name a latest slot: the statistics the slot recovered last, the
ring buffer and the file store the largest slot that they were given.  The RPC
answers with the first, and after a restart with the last.

* `SlotsTracked` — what the records hold after a run, `step_slotsTracked` and
  `run_slotsTracked` — that they do;
* `latestIs_iff` — the records agree when the last recovery is the largest;
* `latestAgrees_iff` — they agree all along a run exactly if slots are recovered
  in order.
-/
import Sg32.Publication
import Sg32.RingBufferWindow
import Sg32.StoreRestart

namespace Sg32

open Rust SlotRingBuffer

/-- The largest slot recovered so far. -/
def maxSlot (published : List Publication) : Option UInt64 :=
  (published.map Publication.slot).max?

theorem maxSlot_eq_some_iff {published : List Publication} {slot : UInt64} :
    maxSlot published = some slot ↔
      (∃ p ∈ published, p.slot = slot) ∧ ∀ p ∈ published, p.slot ≤ slot := by
  rw [maxSlot, List.max?_eq_some_iff]
  simp only [List.mem_map, forall_exists_index, and_imp, forall_apply_eq_imp_iff₂]

/-- All three records name this slot. -/
structure LatestIs (node : Node) (slot : UInt64) : Prop where
  stats : node.stats.latest_slot = slot
  ring_buffer : node.ring_buffer.latestSlot = some slot
  file_store : node.file_store.latestSlot = some slot

variable {libs : Libs} {build : Build} {node : Node} {published : List Publication}
  {deliveries : List Delivery}

/-- What the records hold after these publications, the last one first. -/
structure SlotsTracked (node : Node) (published : List Publication) : Prop where
  stats : node.stats.latest_slot = (published.head?.map Publication.slot).getD 0
  ring : ∃ puts, Follows 500 puts node.ring_buffer ∧
    puts.map SlotData.slot = (published.map Publication.slot).reverse
  file : ∃ saves, FlatFileStore.Saved saves node.file_store node.disk ∧
    saves.map Prod.fst = published.map Publication.slot

theorem slotsTracked_start : SlotsTracked (Node.start .empty ∅ {}) [] where
  stats := rfl
  ring := ⟨[], follows_new 500, rfl⟩
  file := ⟨[], .opened rfl, rfl⟩

/-- A slot below `u64::MAX`, and not 0. -/
def UsualSlot (slot : UInt64) : Prop := 1 ≤ slot.toNat ∧ slot.toNat + 1 < 2 ^ 64

/-- A step keeps track of the slots. -/
theorem step_slotsTracked {delivery : Delivery} {node' : Node} {published' : List Publication}
    (hstep : record libs build (node, published) delivery = .ok (node', published'))
    (hsaved : ∀ p ∈ published', p.saved = true) (hslots : ∀ p ∈ published', UsualSlot p.slot)
    (h : SlotsTracked node published) : SlotsTracked node' published' := by
  rcases record_cases_counts hstep with
    ⟨hkeep, hcounts, rfl⟩ | ⟨batch, recovered, result, hpub, hcounts, rfl⟩
  · refine ⟨hcounts.latest_slot.trans h.stats, ?_, ?_⟩
    · rw [hkeep.ring_buffer]
      exact h.ring
    · rw [hkeep.file_store, hkeep.disk]
      exact h.file
  · refine ⟨hcounts.latest_slot, ?_, ?_⟩
    -- the slots are usual ones, so that `head` does not overflow on this `put`
    · obtain ⟨puts, hfollows, hputs⟩ := h.ring
      have hbound : slotsEnd puts < 2 ^ 64 := by
        refine slotsEnd_lt (by decide) fun slot_data hmem => ?_
        have hslot : slot_data.slot ∈ (published.map Publication.slot).reverse :=
          hputs ▸ List.mem_map_of_mem hmem
        obtain ⟨p, hp, hpslot⟩ := List.mem_map.mp (List.mem_reverse.mp hslot)
        rw [← hpslot]
        exact (hslots p (List.mem_cons_of_mem _ hp)).2
      have hlast : (slotData libs batch result).slot.toNat + 1 < 2 ^ 64 :=
        (hslots _ List.mem_cons_self).2
      obtain ⟨buf, hput, hfollows'⟩ := follows_put build (by decide) hfollows hbound hlast
      obtain rfl : buf = node'.ring_buffer := Except.ok.inj (hput.symm.trans hpub.put)
      refine ⟨_, hfollows', ?_⟩
      rw [List.map_append, hputs, List.map_cons, List.map_cons, List.reverse_cons]
      rfl
    · obtain ⟨saves, hsaves, hslots'⟩ := h.file
      have hwritten := of_decide_eq_true (hsaved _ List.mem_cons_self)
      have hsave : node.file_store.saveSlot node.disk batch.slot recovered.flatten
          delivery.2.dataWrite delivery.2.metaWrite = (node'.file_store, node'.disk, true) := by
        rw [hpub.file_store, hpub.disk, hwritten.1, hwritten.2]
        rfl
      refine ⟨(batch.slot, recovered.flatten) :: saves, .saved hsaves hsave, ?_⟩
      rw [List.map_cons, List.map_cons, hslots']

/-! ### What the records name -/

theorem file_latestSlot (h : SlotsTracked node published) :
    node.file_store.latestSlot = maxSlot published := by
  obtain ⟨saves, hsaves, hslots⟩ := h.file
  have hhas : ∀ slot, node.file_store.hasSlot slot = true ↔ ∃ p ∈ published, p.slot = slot := by
    intro slot
    rw [FlatFileStore.hasSlot_of_inSync hsaves.inSync]
    have hkeys : (saves.lookup slot).isSome = true ↔ slot ∈ saves.map Prod.fst := by
      simp [List.lookup_isSome_iff]
    rw [hkeys, hslots, List.mem_map]
  refine Option.ext fun slot => ?_
  rw [FlatFileStore.latestSlot_eq_some_iff, maxSlot_eq_some_iff]
  simp only [hhas, forall_exists_index, and_imp, forall_apply_eq_imp_iff₂]

theorem exists_maxSlot (h : published ≠ []) : ∃ slot, maxSlot published = some slot := by
  rw [← Option.ne_none_iff_exists', maxSlot, Ne, List.max?_eq_none_iff, List.map_eq_nil_iff]
  exact h

theorem ring_latestSlot (h : SlotsTracked node published) :
    node.ring_buffer.latestSlot = maxSlot published := by
  obtain ⟨puts, hfollows, hputs⟩ := h.ring
  rw [latestSlot_of_follows hfollows, hputs, maxSlot]
  refine Option.ext fun slot => ?_
  rw [List.max?_eq_some_iff, List.max?_eq_some_iff]
  simp only [List.mem_reverse]

/-- **The records agree** when the slot recovered last is the largest one. -/
theorem latestIs_iff {p : Publication} (h : SlotsTracked node (p :: published)) {slot : UInt64}
    (hmax : maxSlot (p :: published) = some slot) : LatestIs node slot ↔ p.slot = slot := by
  have hstats : node.stats.latest_slot = p.slot := h.stats
  constructor
  · intro hlatest
    rw [← hstats, hlatest.stats]
  · intro heq
    exact ⟨hstats.trans heq, (ring_latestSlot h).trans hmax, (file_latestSlot h).trans hmax⟩

/-! ### Runs -/

/-- Slots are recovered in order: none after a larger one. -/
def InOrder (published : List Publication) : Prop :=
  published.Pairwise fun later earlier => earlier.slot ≤ later.slot

theorem run_slotsTracked (hrun : recordRun libs build ∅ {} deliveries = .ok (node, published))
    (hsaved : ∀ p ∈ published, p.saved = true) (hslots : ∀ p ∈ published, UsualSlot p.slot) :
    SlotsTracked node published := by
  induction deliveries using List.reverseRecOn generalizing node published with
  | nil =>
    cases hrun
    exact slotsTracked_start
  | append_singleton deliveries delivery ih =>
    obtain ⟨⟨before, published₀⟩, hbefore, hstep⟩ := recordRun_append hrun
    have hsub : ∀ p ∈ published₀, p ∈ published := by
      rcases record_published hstep with rfl | ⟨q, rfl⟩
      · exact fun p hp => hp
      · exact fun p hp => List.mem_cons_of_mem q hp
    exact step_slotsTracked hstep hsaved hslots
      (ih hbefore (fun p hp => hsaved p (hsub p hp)) fun p hp => hslots p (hsub p hp))

/-- A run begins with what an initial part of it published. -/
theorem recordRun_of_initial {front : List Delivery} (hfront : front <+: deliveries)
    (hrun : recordRun libs build ∅ {} deliveries = .ok (node, published)) :
    ∃ node' published', recordRun libs build ∅ {} front = .ok (node', published') ∧
      published' <:+ published := by
  induction deliveries using List.reverseRecOn generalizing node published with
  | nil =>
    obtain rfl := List.prefix_nil.mp hfront
    exact ⟨node, published, hrun, List.suffix_rfl⟩
  | append_singleton deliveries delivery ih =>
    rcases List.prefix_concat_iff.mp hfront with rfl | hshort
    · exact ⟨node, published, hrun, List.suffix_rfl⟩
    · obtain ⟨⟨before, published₀⟩, hbefore, hstep⟩ := recordRun_append hrun
      obtain ⟨node', published', hrun', hsuffix⟩ := ih hshort hbefore
      refine ⟨node', published', hrun', hsuffix.trans ?_⟩
      rcases record_published hstep with rfl | ⟨q, rfl⟩
      · exact List.suffix_rfl
      · exact List.suffix_cons q _

/-- What the RPC calls the live slot, when slots are recovered in order. -/
theorem liveSlot_eq (h : SlotsTracked node published) (hslots : ∀ p ∈ published, UsualSlot p.slot)
    (horder : InOrder published) : liveSlot node = (maxSlot published).getD 0 := by
  rw [liveSlot]
  cases published with
  | nil =>
    have hstats : node.stats.latest_slot = 0 := h.stats
    rw [hstats, file_latestSlot h]
    rfl
  | cons p published =>
    have hstats : node.stats.latest_slot = p.slot := h.stats
    have hpos : (0 : UInt64) < p.slot := by
      rw [UInt64.lt_iff_toNat_lt]
      exact (hslots p List.mem_cons_self).1
    have hmax : maxSlot (p :: published) = some p.slot := by
      refine maxSlot_eq_some_iff.mpr ⟨⟨p, List.mem_cons_self, rfl⟩, fun q hq => ?_⟩
      rcases List.mem_cons.mp hq with rfl | hq
      · exact UInt64.le_refl _
      · exact (List.pairwise_cons.mp horder).1 q hq
    rw [hstats, if_pos hpos, hmax, Option.getD_some]

/-- In every state of the run the records name the largest slot recovered so
far; the live slot never goes back, and a restart does not change it. -/
structure LatestAgrees (libs : Libs) (build : Build) (deliveries : List Delivery) : Prop where
  agree : ∀ front node published slot, front <+: deliveries →
    recordRun libs build ∅ {} front = .ok (node, published) →
      maxSlot published = some slot → LatestIs node slot
  forward : ∀ front front' node node' published published', front <+: front' →
    front' <+: deliveries → recordRun libs build ∅ {} front = .ok (node, published) →
      recordRun libs build ∅ {} front' = .ok (node', published') → liveSlot node ≤ liveSlot node'
  restart : ∀ front node published (readDir : List FileName), front <+: deliveries →
    recordRun libs build ∅ {} front = .ok (node, published) → readDir.Perm node.disk.keys →
      ∃ store, FlatFileStore.new node.disk readDir = some store ∧
        liveSlot (Node.start store node.disk {}) = liveSlot node

theorem maxSlot_getD_mono {published' : List Publication} (h : published' <:+ published) :
    (maxSlot published').getD 0 ≤ (maxSlot published).getD 0 := by
  cases hmax' : maxSlot published' with
  | none => exact UInt64.le_iff_toNat_le.mpr (Nat.zero_le _)
  | some slot' =>
    obtain ⟨⟨p, hp, rfl⟩, -⟩ := maxSlot_eq_some_iff.mp hmax'
    obtain ⟨slot, hmax⟩ := exists_maxSlot (List.ne_nil_of_mem (h.subset hp))
    rw [hmax, Option.getD_some, Option.getD_some]
    exact (maxSlot_eq_some_iff.mp hmax).2 p (h.subset hp)

theorem inOrder_of_agree (hrun : recordRun libs build ∅ {} deliveries = .ok (node, published))
    (hsaved : ∀ p ∈ published, p.saved = true) (hslots : ∀ p ∈ published, UsualSlot p.slot)
    (hagree : ∀ front node published slot, front <+: deliveries →
      recordRun libs build ∅ {} front = .ok (node, published) →
        maxSlot published = some slot → LatestIs node slot) : InOrder published := by
  induction deliveries using List.reverseRecOn generalizing node published with
  | nil =>
    cases hrun
    exact List.Pairwise.nil
  | append_singleton deliveries delivery ih =>
    obtain ⟨⟨before, published₀⟩, hbefore, hstep⟩ := recordRun_append hrun
    have hagree₀ : ∀ front node published slot, front <+: deliveries →
        recordRun libs build ∅ {} front = .ok (node, published) →
          maxSlot published = some slot → LatestIs node slot :=
      fun front node published slot hfront =>
        hagree front node published slot (hfront.trans (List.prefix_append _ _))
    rcases record_published hstep with rfl | ⟨p, rfl⟩
    · exact ih hbefore hsaved hslots hagree₀
    · have hold := ih hbefore (fun q hq => hsaved q (List.mem_cons_of_mem p hq))
        (fun q hq => hslots q (List.mem_cons_of_mem p hq)) hagree₀
      -- the new slot is the largest, as the statistics name it
      obtain ⟨slot, hmax⟩ := exists_maxSlot (List.cons_ne_nil p published₀)
      have hlatest := hagree _ node _ slot List.prefix_rfl hrun hmax
      have hslot := (latestIs_iff (run_slotsTracked hrun hsaved hslots) hmax).mp hlatest
      refine List.pairwise_cons.mpr ⟨fun q hq => ?_, hold⟩
      rw [hslot]
      exact (maxSlot_eq_some_iff.mp hmax).2 q (List.mem_cons_of_mem p hq)

/-- **When the three records agree**: over a run in which every save succeeds,
they name the largest slot recovered, in every state and after a restart,
exactly if slots are recovered in order. -/
theorem latestAgrees_iff (hrun : recordRun libs build ∅ {} deliveries = .ok (node, published))
    (hsaved : ∀ p ∈ published, p.saved = true) (hslots : ∀ p ∈ published, UsualSlot p.slot) :
    LatestAgrees libs build deliveries ↔ InOrder published := by
  constructor
  · intro h
    exact inOrder_of_agree hrun hsaved hslots h.agree
  intro horder
  -- what holds of the run holds of its initial parts
  have hinitial : ∀ front node' published', front <+: deliveries →
      recordRun libs build ∅ {} front = .ok (node', published') →
        SlotsTracked node' published' ∧ InOrder published' ∧
          ∀ p ∈ published', UsualSlot p.slot := by
    intro front node' published' hfront hrun'
    obtain ⟨node'', published'', hrun'', hsuffix⟩ := recordRun_of_initial hfront hrun
    cases hrun'.symm.trans hrun''
    have hslots' : ∀ p ∈ published', UsualSlot p.slot := fun p hp => hslots p (hsuffix.subset hp)
    exact ⟨run_slotsTracked hrun' (fun p hp => hsaved p (hsuffix.subset hp)) hslots',
      List.Pairwise.sublist hsuffix.sublist horder, hslots'⟩
  refine ⟨?_, ?_, ?_⟩
  · intro front node' published' slot hfront hrun' hmax
    obtain ⟨htracked, horder', -⟩ := hinitial front node' published' hfront hrun'
    cases published' with
    | nil => cases hmax
    | cons p published' =>
      obtain ⟨⟨q, hq, rfl⟩, hle⟩ := maxSlot_eq_some_iff.mp hmax
      refine (latestIs_iff htracked hmax).mpr
        (UInt64.le_antisymm (hle p List.mem_cons_self) ?_)
      rcases List.mem_cons.mp hq with rfl | hq
      · exact UInt64.le_refl _
      · exact (List.pairwise_cons.mp horder').1 q hq
  · intro front front' node' node'' published' published'' hshort hfront hrun' hrun''
    obtain ⟨htracked, horder', hslots'⟩ :=
      hinitial front node' published' (hshort.trans hfront) hrun'
    obtain ⟨htracked', horder'', hslots''⟩ := hinitial front' node'' published'' hfront hrun''
    obtain ⟨node₀, published₀, hrun₀, hsuffix⟩ := recordRun_of_initial hshort hrun''
    cases hrun'.symm.trans hrun₀
    rw [liveSlot_eq htracked hslots' horder', liveSlot_eq htracked' hslots'' horder'']
    exact maxSlot_getD_mono hsuffix
  · intro front node' published' readDir hfront hrun' hlist
    obtain ⟨htracked, horder', hslots'⟩ := hinitial front node' published' hfront hrun'
    obtain ⟨saves, hsaves, -⟩ := htracked.file
    obtain ⟨store, hstore, hsame⟩ := FlatFileStore.exists_new_of_inSync hsaves.inSync hlist
    refine ⟨store, hstore, ?_⟩
    rw [liveSlot_eq htracked hslots' horder', ← file_latestSlot htracked, ← hsame.latestSlot]
    rfl

/-- Blocks of two slots, one after the other. -/
def twoBlocks (first second : UInt64) : List Delivery :=
  oneShred first 0 (smallStream [smallTx 4]) ++ oneShred second 0 (smallStream [smallTx 4])

def recoveredAt (slot : UInt64) : Publication where
  slot := slot
  result := smallResult [smallTx 4]
  saved := true

theorem latestAgrees_sample :
    InOrder [recoveredAt 8, recoveredAt 7] ∧ LatestAgrees sampleLibs .debug (twoBlocks 7 8) := by
  have horder : InOrder [recoveredAt 8, recoveredAt 7] := by
    unfold InOrder
    decide
  obtain ⟨node, hrun⟩ := exists_node_of_published sampleLibs .debug ∅ {} (twoBlocks 7 8)
    [recoveredAt 8, recoveredAt 7] (by decide +kernel)
  refine ⟨horder, (latestAgrees_iff hrun (by decide +kernel) ?_).mpr horder⟩
  intro p hp
  rcases List.mem_cons.mp hp with rfl | hp
  · exact ⟨by decide, by decide⟩
  · rw [List.mem_singleton.mp hp]
    exact ⟨by decide, by decide⟩

/-- Slot 8 is recovered before slot 7. -/
theorem latestAgrees_reversed :
    ¬ ∀ (libs : Libs) (build : Build) (deliveries : List Delivery) (node : Node)
        (published : List Publication),
      recordRun libs build ∅ {} deliveries = .ok (node, published) →
      (∀ p ∈ published, p.saved = true) → (∀ p ∈ published, UsualSlot p.slot) →
      LatestAgrees libs build deliveries := by
  intro h
  obtain ⟨node, hrun⟩ := exists_node_of_published sampleLibs .debug ∅ {} (twoBlocks 8 7)
    [recoveredAt 7, recoveredAt 8] (by decide +kernel)
  have hsaved : ∀ p ∈ [recoveredAt 7, recoveredAt 8], p.saved = true := by decide +kernel
  have hslots : ∀ p ∈ [recoveredAt 7, recoveredAt 8], UsualSlot p.slot := by
    intro p hp
    rcases List.mem_cons.mp hp with rfl | hp
    · exact ⟨by decide, by decide⟩
    · rw [List.mem_singleton.mp hp]
      exact ⟨by decide, by decide⟩
  have hagrees := h sampleLibs .debug _ node _ hrun hsaved hslots
  have horder := inOrder_of_agree hrun hsaved hslots hagrees.agree
  exact absurd ((List.pairwise_cons.mp horder).1 (recoveredAt 8) (by simp)) (by decide)

end Sg32
