/-
Writers that compare before they store.

A writer loads a shared cell, compares what it saw with a candidate of its
own, and stores the candidate when it is larger.  The three are separate steps
and writers take theirs in any order, so that a store can undo a larger one.

* `step`, `run` — a schedule of steps from any value of the cell;
* `run_flight` — what a writer knows between its load and its store;
* `neverDecreases_iff` — the cell never goes down exactly if no writer stores
  after another one has stored something larger since its load.
-/
import Mathlib.Data.List.Induction
import Mathlib.Data.List.Infix
import Mathlib.Logic.Function.Basic

namespace CheckedStore

variable {W V : Type}

/-- Where a writer is: before its load, or with a candidate and what it loaded,
or past the comparison. -/
inductive Phase (V : Type)
  | idle
  | loaded (candidate seen : V)
  | passed (candidate : V)
  deriving DecidableEq

inductive Event (W V : Type)
  | load (w : W) (candidate : V)
  | compare (w : W)
  | store (w : W) (candidate : V)
  deriving DecidableEq

structure State (W V : Type) where
  cell : V
  phase : W → Phase V

/-- A cell that nobody works on. -/
def start (cell : V) : State W V where
  cell := cell
  phase _ := .idle

/-- The event is no load and no store of this writer. -/
def NotOwn (w : W) : Event W V → Prop
  | .load w' _ => w' ≠ w
  | .compare _ => True
  | .store w' _ => w' ≠ w

section Schedules

variable [DecidableEq W]

/-- Move one writer on. -/
def State.advance (s : State W V) (w : W) (phase : Phase V) : State W V where
  cell := s.cell
  phase := Function.update s.phase w phase

@[simp]
theorem State.advance_phase_self (s : State W V) (w : W) (phase : Phase V) :
    (s.advance w phase).phase w = phase := by
  simp [State.advance]

@[simp]
theorem State.advance_phase_of_ne (s : State W V) {w w' : W} (h : w' ≠ w) {phase : Phase V} :
    (s.advance w phase).phase w' = s.phase w' := by
  simp [State.advance, h]

variable [DecidableEq V] [LT V] [DecidableLT V]

/-- One step of a writer, when it is its turn to make it. -/
def step (s : State W V) : Event W V → Option (State W V)
  | .load w candidate =>
    match s.phase w with
    | .idle => some (s.advance w (.loaded candidate s.cell))
    | _ => none
  | .compare w =>
    match s.phase w with
    | .loaded candidate seen =>
      some (s.advance w (if candidate > seen then .passed candidate else .idle))
    | _ => none
  | .store w candidate =>
    if s.phase w = .passed candidate then
      some { s.advance w .idle with cell := candidate }
    else none

def run (s : State W V) (events : List (Event W V)) : Option (State W V) :=
  events.foldlM step s

/-- In no state of the run the cell is below an earlier one. -/
def NeverDecreases [LE V] (cell : V) (events : List (Event W V)) : Prop :=
  ∀ front front', front <+: front' → front' <+: events → ∀ s s',
    run (start cell) front = some s → run (start cell) front' = some s' → s.cell ≤ s'.cell

end Schedules

/-- Some writer stores its candidate although, since its load, another one has
stored something larger. -/
def Overtaken [LT V] (events : List (Event W V)) : Prop :=
  ∃ before between after w candidate,
    events = before ++ .load w candidate :: (between ++ .store w candidate :: after) ∧
      (∀ e ∈ between, NotOwn w e) ∧
      ∃ w' larger, .store w' larger ∈ between ∧ candidate < larger

/-- A later end does not undo it. -/
theorem Overtaken.append [LT V] {events : List (Event W V)} (h : Overtaken events)
    (rest : List (Event W V)) : Overtaken (events ++ rest) := by
  obtain ⟨before, between, after, w, candidate, rfl, hown, hlarger⟩ := h
  refine ⟨before, between, after ++ rest, w, candidate, ?_, hown, hlarger⟩
  simp only [List.append_assoc, List.cons_append]

variable [DecidableEq W] [DecidableEq V] [LT V] [DecidableLT V]
  {s s' : State W V} {cell : V} {events : List (Event W V)} {event : Event W V} {w : W}

/-! ### Steps -/

theorem run_append {rest : List (Event W V)} :
    run s (events ++ rest) = (run s events).bind fun s => run s rest := by
  rw [run, List.foldlM_append]
  rfl

theorem run_concat :
    run s (events ++ [event]) = (run s events).bind fun s => step s event := by
  rw [run, List.foldlM_append]
  simp only [List.foldlM_cons, List.foldlM_nil, bind_pure]
  rfl

/-- Before the last step of a run. -/
theorem exists_of_run_concat (h : run s (events ++ [event]) = some s') :
    ∃ t, run s events = some t ∧ step t event = some s' := by
  rw [run_concat] at h
  exact Option.bind_eq_some_iff.mp h

/-- All that a step can do. -/
theorem step_cases (h : step s event = some s') :
    (∃ w candidate, event = .load w candidate ∧ s.phase w = .idle ∧
      s' = s.advance w (.loaded candidate s.cell)) ∨
    (∃ w candidate seen, event = .compare w ∧ s.phase w = .loaded candidate seen ∧
      s' = s.advance w (if candidate > seen then .passed candidate else .idle)) ∨
    (∃ w candidate, event = .store w candidate ∧ s.phase w = .passed candidate ∧
      s' = { s.advance w .idle with cell := candidate }) := by
  rcases event with ⟨w, candidate⟩ | ⟨w⟩ | ⟨w, candidate⟩
  · rw [step] at h
    split at h
    · exact .inl ⟨w, candidate, rfl, ‹_›, (Option.some.inj h).symm⟩
    · cases h
  · rw [step] at h
    split at h
    · exact .inr (.inl ⟨w, _, _, rfl, ‹_›, (Option.some.inj h).symm⟩)
    · cases h
  · rw [step] at h
    split_ifs at h with hphase
    exact .inr (.inr ⟨w, candidate, rfl, hphase, (Option.some.inj h).symm⟩)

/-- The cell changes by a store only. -/
theorem cell_of_step (h : step s event = some s') :
    s'.cell = s.cell ∨ ∃ w, event = .store w s'.cell := by
  rcases step_cases h with ⟨w, candidate, rfl, -, rfl⟩ | ⟨w, candidate, seen, rfl, -, rfl⟩ |
    ⟨w, candidate, rfl, -, rfl⟩
  · exact .inl rfl
  · exact .inl rfl
  · exact .inr ⟨w, rfl⟩

theorem cell_of_store {candidate : V} (h : step s (.store w candidate) = some s') :
    s'.cell = candidate := by
  rw [step] at h
  split_ifs at h
  rw [← Option.some.inj h]

/-! ### Between a load and a store -/

/-- The writer has loaded and not stored yet; what it saw is still in the cell,
or somebody has stored what is there now. -/
def Flight (events : List (Event W V)) (s : State W V) (w : W) (candidate seen : V) : Prop :=
  ∃ before between, events = before ++ .load w candidate :: between ∧
    (∀ e ∈ between, NotOwn w e) ∧ (s.cell = seen ∨ ∃ w', .store w' s.cell ∈ between)

theorem Flight.concat {candidate seen : V} (h : Flight events s w candidate seen)
    (hstep : step s event = some s') (hown : NotOwn w event) :
    Flight (events ++ [event]) s' w candidate seen := by
  obtain ⟨before, between, rfl, hbetween, hcell⟩ := h
  refine ⟨before, between ++ [event], by simp, ?_, ?_⟩
  · intro e he
    rcases List.mem_append.mp he with he | he
    · exact hbetween e he
    · rw [List.mem_singleton.mp he]
      exact hown
  · rcases cell_of_step hstep with hsame | ⟨w', rfl⟩
    · rw [hsame]
      exact hcell.imp_right fun ⟨w', hmem⟩ => ⟨w', List.mem_append_left _ hmem⟩
    · exact .inr ⟨w', by simp⟩

/-- What a writer knows in a state that these events lead to. -/
structure Knows (events : List (Event W V)) (s : State W V) (w : W) : Prop where
  loaded : ∀ candidate seen, s.phase w = .loaded candidate seen →
    Flight events s w candidate seen
  passed : ∀ candidate, s.phase w = .passed candidate →
    ∃ seen < candidate, Flight events s w candidate seen

omit [DecidableEq W] [DecidableEq V] [DecidableLT V] in
theorem knows_of_idle (h : s.phase w = .idle) : Knows events s w where
  loaded _ _ hloaded := by
    rw [h] at hloaded
    cases hloaded
  passed _ hpassed := by
    rw [h] at hpassed
    cases hpassed

/-- A writer that is not on keeps what it knows. -/
theorem Knows.concat (h : Knows events s w) (hstep : step s event = some s')
    (hphase : s'.phase w = s.phase w) (hown : NotOwn w event) :
    Knows (events ++ [event]) s' w where
  loaded candidate seen hloaded := by
    rw [hphase] at hloaded
    exact (h.loaded candidate seen hloaded).concat hstep hown
  passed candidate hpassed := by
    rw [hphase] at hpassed
    obtain ⟨seen, hseen, hflight⟩ := h.passed candidate hpassed
    exact ⟨seen, hseen, hflight.concat hstep hown⟩

/-- A step leaves every writer with what it should know. -/
theorem step_knows (h : ∀ w, Knows events s w) (hstep : step s event = some s') (w : W) :
    Knows (events ++ [event]) s' w := by
  rcases step_cases hstep with ⟨w₀, candidate₀, rfl, -, rfl⟩ |
    ⟨w₀, candidate₀, seen₀, rfl, hphase, rfl⟩ | ⟨w₀, candidate₀, rfl, -, rfl⟩
  · by_cases hw : w = w₀
    · -- the flight starts here
      subst hw
      refine ⟨fun candidate seen hloaded => ?_, fun candidate hpassed => ?_⟩
      · rw [State.advance_phase_self] at hloaded
        cases hloaded
        exact ⟨events, [], rfl, by simp, .inl rfl⟩
      · rw [State.advance_phase_self] at hpassed
        cases hpassed
    · exact (h w).concat hstep (s.advance_phase_of_ne hw) (Ne.symm hw)
  · by_cases hw : w = w₀
    · subst hw
      have hflight := ((h w).loaded candidate₀ seen₀ hphase).concat hstep trivial
      by_cases hgt : candidate₀ > seen₀
      · rw [if_pos hgt] at hflight ⊢
        refine ⟨fun candidate seen hloaded => ?_, fun candidate hpassed => ?_⟩
        · rw [State.advance_phase_self] at hloaded
          cases hloaded
        · rw [State.advance_phase_self] at hpassed
          cases hpassed
          exact ⟨seen₀, hgt, hflight⟩
      · rw [if_neg hgt]
        exact knows_of_idle (s.advance_phase_self w .idle)
    · exact (h w).concat hstep (s.advance_phase_of_ne hw) trivial
  · by_cases hw : w = w₀
    · subst hw
      exact knows_of_idle (s.advance_phase_self w .idle)
    · exact (h w).concat hstep (s.advance_phase_of_ne hw) (Ne.symm hw)

/-- And so does a run. -/
theorem run_flight (hrun : run (start cell) events = some s) (w : W) : Knows events s w := by
  induction events using List.reverseRecOn generalizing s w with
  | nil =>
    rw [← Option.some.inj hrun]
    exact knows_of_idle rfl
  | append_singleton events event ih =>
    obtain ⟨t, ht, hstep⟩ := exists_of_run_concat hrun
    exact step_knows (fun w => ih ht w) hstep w

/-! ### The cell -/

variable [LE V] [Std.IsLinearOrder V] [Std.LawfulOrderLT V]

/-- A store that comes in time does not lower the cell. -/
theorem cell_le_of_step (hrun : run (start cell) events = some s)
    (hstep : step s event = some s') (h : ¬ Overtaken (events ++ [event])) :
    s.cell ≤ s'.cell := by
  rcases step_cases hstep with ⟨w, candidate, rfl, -, rfl⟩ | ⟨w, candidate, seen, rfl, -, rfl⟩ |
    ⟨w, candidate, rfl, hphase, rfl⟩
  · exact Std.le_refl s.cell
  · exact Std.le_refl s.cell
  · show s.cell ≤ candidate
    obtain ⟨seen, hseen, before, between, rfl, hown, hcell⟩ :=
      (run_flight hrun w).passed candidate hphase
    rcases hcell with hcell | ⟨w', hmem⟩
    · rw [hcell]
      exact Std.le_of_lt hseen
    · -- were the cell larger, its store would lie between the load and this one
      by_contra hgt
      refine h ⟨before, between, [], w, candidate, ?_, hown, w', s.cell, hmem, Std.not_le.mp hgt⟩
      simp

theorem neverDecreases_of_not_overtaken (h : ¬ Overtaken events) :
    NeverDecreases cell events := by
  intro front front' hfront hfront' s s' hs hs'
  obtain ⟨rest, rfl⟩ := hfront
  obtain ⟨rest', rfl⟩ := hfront'
  replace h : ¬ Overtaken (front ++ rest) := fun hover => h (hover.append rest')
  clear rest'
  induction rest using List.reverseRecOn generalizing s' with
  | nil =>
    rw [List.append_nil, hs] at hs'
    rw [Option.some.inj hs']
    exact Std.le_refl s'.cell
  | append_singleton rest event ih =>
    rw [← List.append_assoc] at hs' h
    obtain ⟨t, ht, hstep⟩ := exists_of_run_concat hs'
    exact Std.le_trans (ih t ht fun hover => h (hover.append [event]))
      (cell_le_of_step ht hstep h)

omit [LE V] [Std.IsLinearOrder V] [Std.LawfulOrderLT V] in
/-- Every stored value has been in the cell. -/
theorem exists_cell_of_store {rest : List (Event W V)} {candidate : V}
    (h : run s (events ++ .store w candidate :: rest) = some s') :
    ∃ t, run s (events ++ [.store w candidate]) = some t ∧ t.cell = candidate := by
  rw [List.append_cons, run_append] at h
  obtain ⟨t, ht, -⟩ := Option.bind_eq_some_iff.mp h
  obtain ⟨u, -, hstep⟩ := exists_of_run_concat ht
  exact ⟨t, ht, cell_of_store hstep⟩

/-- **The cell never goes down exactly if no writer is overtaken.** -/
theorem neverDecreases_iff (hrun : run (start cell) events = some s) :
    NeverDecreases cell events ↔ ¬ Overtaken events := by
  refine ⟨?_, neverDecreases_of_not_overtaken⟩
  rintro hnever ⟨before, between, after, w, candidate, rfl, -, w', larger, hmem, hlt⟩
  obtain ⟨first, last, rfl⟩ := List.append_of_mem hmem
  -- the state after the larger store, and the one after the smaller
  have hlarger : run (start cell) ((before ++ .load w candidate :: first) ++
      .store w' larger :: (last ++ .store w candidate :: after)) = some s := by
    simpa using hrun
  have hsmaller : run (start cell) ((before ++ .load w candidate ::
      (first ++ .store w' larger :: last)) ++ .store w candidate :: after) = some s := by
    simpa using hrun
  obtain ⟨t, ht, htcell⟩ := exists_cell_of_store hlarger
  obtain ⟨t', ht', htcell'⟩ := exists_cell_of_store hsmaller
  have hle := hnever _ _ ⟨last ++ [.store w candidate], by simp⟩ ⟨after, by simp⟩ t t' ht ht'
  rw [htcell, htcell'] at hle
  exact Std.not_le.mpr hlt hle

end CheckedStore
