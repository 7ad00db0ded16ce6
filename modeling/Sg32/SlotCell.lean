/-
The shared slot counter (`run_gossip_loop` in `lib.rs`, the slot task of `main.rs`).

Two tasks advance one atomic counter.  Gossip takes the highest slot of its
table after a prune, the other task the slot that an RPC node answers.  Each
loads the counter, compares, and stores its own slot when that is larger.

* `run_events` — the tasks are writers that compare before they store;
* `latestSlot_onlyAdvances_iff` — the counter only advances in the schedules
  in which no task stores late.
-/
import Sg32.Foundation.CheckedStore
import Sg32.Gossip.Crds
import Sg32.RpcServer

namespace Sg32

open CheckedStore

/-- The tasks that write `latest_slot`. -/
inductive SlotTask
  | gossip
  | slotRpc
  deriving DecidableEq

/-- What a task learns before it looks at the counter: the table that `prune`
leaves, or the answer to `getSlot`. -/
inductive SlotSource
  | pruned (table : CrdsTable)
  | answered (v : Json)

namespace SlotSource

def task : SlotSource → SlotTask
  | .pruned _ => .gossip
  | .answered _ => .slotRpc

def slot : SlotSource → Option UInt64
  | .pruned table => table.getHighestSlot
  | .answered v => (v.get "result").bind Json.asU64

end SlotSource

/-- The counter, and where the two tasks are. -/
abbrev SlotCell := State SlotTask UInt64

inductive Access
  | load (source : SlotSource)
  | compare (task : SlotTask)
  | store (task : SlotTask) (slot : UInt64)

/-- The access to the counter, if a slot was found. -/
def Access.event? : Access → Option (Event SlotTask UInt64)
  | .load source => source.slot.map fun slot => .load source.task slot
  | .compare task => some (.compare task)
  | .store task slot => some (.store task slot)

namespace SlotCell

/-- One step of a task.  Without a slot the task goes back to waiting. -/
def step (s : SlotCell) : Access → Option SlotCell
  | .load source =>
    match source.slot with
    | some slot => CheckedStore.step s (.load source.task slot)
    | none => if s.phase source.task = .idle then some s else none
  | .compare task => CheckedStore.step s (.compare task)
  | .store task slot => CheckedStore.step s (.store task slot)

def run (s : SlotCell) (accesses : List Access) : Option SlotCell := accesses.foldlM step s

/-- The counter is never below an earlier value of itself. -/
def OnlyAdvances (slot : UInt64) (accesses : List Access) : Prop :=
  ∀ front front', front <+: front' → front' <+: accesses → ∀ s s',
    run (start slot) front = some s → run (start slot) front' = some s' → s.cell ≤ s'.cell

/-- Some task stores its slot after the other one has, since its load, stored a
larger slot. -/
def StoresLate (accesses : List Access) : Prop := Overtaken (accesses.filterMap Access.event?)

/-! ### The tasks as writers -/

variable {s s' : SlotCell} {slot : UInt64} {access : Access} {accesses : List Access}

theorem step_event (h : step s access = some s') :
    CheckedStore.run s (access.event?.toList) = some s' := by
  rcases access with source | task | ⟨task, slot⟩
  · rw [step] at h
    rw [Access.event?]
    rcases hslot : source.slot with _ | slot
    · -- no slot was found: the counter is not touched
      rw [hslot] at h
      dsimp only at h
      split_ifs at h
      exact h
    · rw [hslot] at h
      simpa [CheckedStore.run] using h
  · simpa [CheckedStore.run, step, Access.event?] using h
  · simpa [CheckedStore.run, step, Access.event?] using h

theorem run_concat :
    run s (accesses ++ [access]) = (run s accesses).bind fun s => step s access := by
  rw [run, List.foldlM_append]
  simp only [List.foldlM_cons, List.foldlM_nil, bind_pure]
  rfl

/-- The accesses of the tasks are a schedule of the writers. -/
theorem run_events (h : run s accesses = some s') :
    CheckedStore.run s (accesses.filterMap Access.event?) = some s' := by
  induction accesses using List.reverseRecOn generalizing s' with
  | nil => exact h
  | append_singleton accesses access ih =>
    rw [run_concat] at h
    obtain ⟨t, ht, hstep⟩ := Option.bind_eq_some_iff.mp h
    rw [List.filterMap_append, CheckedStore.run_append, ih ht, Option.bind_some]
    rw [show [access].filterMap Access.event? = access.event?.toList from by
      rcases haccess : access.event? with _ | event <;> simp [haccess]]
    exact step_event hstep

theorem exists_run_of_append {rest : List Access} (h : run s (accesses ++ rest) = some s') :
    ∃ t, run s accesses = some t := by
  rw [run, List.foldlM_append] at h
  obtain ⟨t, ht, -⟩ := Option.bind_eq_some_iff.mp h
  exact ⟨t, ht⟩

/-- Only the accesses to the counter matter. -/
theorem onlyAdvances_iff (hrun : run (start slot) accesses = some s) :
    OnlyAdvances slot accesses ↔ NeverDecreases slot (accesses.filterMap Access.event?) := by
  constructor
  · rintro hadvances front front' ⟨rest, rfl⟩ ⟨rest', hrest'⟩ t t' ht ht'
    -- the schedule is cut where the events are
    obtain ⟨left, right', rfl, hleft, -⟩ := List.filterMap_eq_append_iff.mp hrest'.symm
    obtain ⟨left, right, rfl, rfl, rfl⟩ := List.filterMap_eq_append_iff.mp hleft
    obtain ⟨u', hu'⟩ := exists_run_of_append hrun
    obtain ⟨u, hu⟩ := exists_run_of_append hu'
    have hle := hadvances left (left ++ right) ⟨right, rfl⟩ ⟨right', rfl⟩ u u' hu hu'
    have hsame := run_events hu
    have hsame' := run_events hu'
    rw [List.filterMap_append] at hsame'
    rw [ht] at hsame
    rw [ht'] at hsame'
    rw [Option.some.inj hsame, Option.some.inj hsame']
    exact hle
  · rintro hnever front front' ⟨rest, rfl⟩ ⟨rest', rfl⟩ t t' ht ht'
    refine hnever _ _ ?_ ?_ t t' (run_events ht) (run_events ht')
    · exact ⟨rest.filterMap Access.event?, by rw [List.filterMap_append]⟩
    · exact ⟨rest'.filterMap Access.event?, by rw [← List.filterMap_append]⟩

/-! ### The counter -/

/-- **The counter only advances exactly if no task stores late**: after the
other one has stored a larger slot since its load. -/
theorem latestSlot_onlyAdvances_iff (hrun : run (start slot) accesses = some s) :
    OnlyAdvances slot accesses ↔ ¬ StoresLate accesses := by
  rw [onlyAdvances_iff hrun, neverDecreases_iff (run_events hrun), StoresLate]

/-- A table whose one vote is for slot 42. -/
def votedTable : CrdsTable := .mergeAll [CrdsTable.sampleVote CrdsTable.samplePubkey 1000]

/-- The answer of an RPC node that is at this slot. -/
def slotAnswer (slot : UInt64) : Json :=
  .obj [("jsonrpc", .str "2.0"), ("result", .u64 slot), ("id", .nat 1)]

/-- The RPC task is through before gossip starts. -/
def inTurn : List Access :=
  [.load (.answered (slotAnswer 40)), .compare .slotRpc, .store .slotRpc 40,
    .load (.pruned votedTable), .compare .gossip, .store .gossip 42]

/-- Gossip stores slot 42 while the RPC task, which saw 0, is about to store 40. -/
def crossed : List Access :=
  [.load (.answered (slotAnswer 40)), .compare .slotRpc,
    .load (.pruned votedTable), .compare .gossip, .store .gossip 42, .store .slotRpc 40]

theorem not_storesLate_inTurn : ¬ StoresLate inTurn := by
  rintro ⟨before, between, after, w, candidate, hevents, -, w', larger, hlarger, hlt⟩
  -- the load of a task, a store in between, and the store of the task
  have hsub : [.load w candidate, .store w' larger, .store w candidate].Sublist
      (inTurn.filterMap Access.event?) := by
    rw [hevents]
    refine List.Sublist.trans ?_ (List.sublist_append_right before _)
    exact .cons_cons _ ((List.singleton_sublist.mpr hlarger).append
      (List.singleton_sublist.mpr List.mem_cons_self))
  have hinTurn : inTurn.filterMap Access.event? =
      [.load .slotRpc 40, .compare .slotRpc, .store .slotRpc 40, .load .gossip 42,
        .compare .gossip, .store .gossip 42] := by
    decide +kernel
  rw [hinTurn] at hsub
  -- the only store before another one is the first, and nothing is loaded before its load
  have htasks : w = .slotRpc ∧ w = .gossip := by
    simp [List.cons_sublist_cons'] at hsub
    exact ⟨hsub.1.1, hsub.2.2.1⟩
  cases htasks.1.symm.trans htasks.2

theorem latestSlot_onlyAdvances_sample : ¬ StoresLate inTurn ∧ OnlyAdvances 0 inTurn :=
  ⟨not_storesLate_inTurn, (latestSlot_onlyAdvances_iff rfl).mpr not_storesLate_inTurn⟩

theorem latestSlot_goesBack :
    ¬ ∀ slot accesses s, run (start slot) accesses = some s → OnlyAdvances slot accesses := by
  intro h
  have hle := h 0 crossed _ rfl (crossed.take 5) crossed ⟨crossed.drop 5, rfl⟩ ⟨[], rfl⟩ _ _ rfl rfl
  exact absurd hle (by decide +kernel)

end SlotCell

end Sg32
