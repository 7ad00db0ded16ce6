/-
Collectors that start over.

A collector gathers items in a batch.  As soon as the batch can be finished it
is dropped, and the next item starts a new one; the result of the last batch
that gave one is kept.  The first item of a batch decides what kind of batch
it is, so the result can depend on the order of the items.

* `Stays`, `Completes` — the items of a batch that is open, and of one that was
  just finished;
* `exists_last_batch` — every run is some finished batches and an open one;
* `exists_perm_run` — whatever batch the items can complete, some order of them
  completes it last;
* `runFrom_of_agree` — batches that give the value kept do not change it;
* `run_eq_none_iff`, `exists_completes_of_run` — runs that keep nothing, and
  where a value that is kept comes from.
-/
import Mathlib.Data.List.Induction
import Mathlib.Data.List.Perm.Subperm

/-- Items `S` are collected in batches `B`; a batch that is finished may give a
value `V`. -/
structure Collector (S B V : Type*) where
  start : S → B
  add : B → S → B
  finish : B → Option (Option V)

namespace Collector

variable {S B V : Type*} (c : Collector S B V)

/-- The open batch and the value kept, after one item. -/
def step (state : Option B × Option V) (item : S) : Option B × Option V :=
  let batch := c.add (state.1.getD (c.start item)) item
  match c.finish batch with
  | none => (some batch, state.2)
  | some result => (none, result.or state.2)

def runFrom (state : Option B × Option V) (items : List S) : Option B × Option V :=
  items.foldl c.step state

def run (items : List S) : Option B × Option V := c.runFrom (none, none) items

/-- The batch of these items, whether or not it was finished on the way. -/
def batch (items : List S) : Option B :=
  items.foldl (fun batch item => some (c.add (batch.getD (c.start item)) item)) none

/-- No batch of the first items can be finished. -/
def Stays (items : List S) : Prop :=
  ∀ first b, first <+: items → c.batch first = some b → c.finish b = none

/-- The batch of the items is finished with the last of them, and gives this
result. -/
structure Completes (items : List S) (result : Option V) : Prop where
  stays : ∀ first, first <+: items → first ≠ items → c.Stays first
  finish : ∃ b, c.batch items = some b ∧ c.finish b = some result

variable {c} {items first rest : List S} {item : S} {result : Option V}

theorem step_of_open {state : Option B × Option V}
    (h : c.finish (c.add (state.1.getD (c.start item)) item) = none) :
    c.step state item = (some (c.add (state.1.getD (c.start item)) item), state.2) := by
  simp only [step, h]

theorem step_of_finished {state : Option B × Option V}
    (h : c.finish (c.add (state.1.getD (c.start item)) item) = some result) :
    c.step state item = (none, result.or state.2) := by
  simp only [step, h]

/-- Nothing is kept after an item when nothing was kept before it, and it gives
nothing. -/
theorem step_eq_none_iff {state : Option B × Option V} :
    (c.step state item).2 = none ↔ state.2 = none ∧ (c.step (state.1, none) item).2 = none := by
  cases hfinish : c.finish (c.add (state.1.getD (c.start item)) item) with
  | none =>
    have hnone : c.step (state.1, none) item = _ := step_of_open hfinish
    rw [step_of_open hfinish, hnone]
    simp
  | some result =>
    have hsome : c.step (state.1, none) item = _ := step_of_finished hfinish
    rw [step_of_finished hfinish, hsome]
    cases result <;> simp

theorem runFrom_append_singleton (state : Option B × Option V) (items : List S) (item : S) :
    c.runFrom state (items ++ [item]) = c.step (c.runFrom state items) item := by
  rw [runFrom, runFrom, List.foldl_append]
  rfl

theorem runFrom_append (state : Option B × Option V) :
    c.runFrom state (first ++ rest) = c.runFrom (c.runFrom state first) rest := by
  rw [runFrom, runFrom, runFrom, List.foldl_append]

theorem batch_append_singleton (items : List S) (item : S) :
    c.batch (items ++ [item]) = some (c.add ((c.batch items).getD (c.start item)) item) := by
  rw [batch, List.foldl_append]
  rfl

theorem stays_nil : c.Stays [] := by
  intro first b hfirst hb
  rw [List.prefix_nil.mp hfirst] at hb
  cases hb

theorem Stays.of_prefix (h : c.Stays items) (hfirst : first <+: items) : c.Stays first :=
  fun p b hp hb => h p b (hp.trans hfirst) hb

theorem stays_append_singleton (h : c.Stays items)
    (hfinish : c.finish (c.add ((c.batch items).getD (c.start item)) item) = none) :
    c.Stays (items ++ [item]) := by
  intro first b hfirst hb
  rcases List.prefix_concat_iff.mp hfirst with rfl | hfirst
  · rw [batch_append_singleton] at hb
    cases hb
    exact hfinish
  · exact h first b hfirst hb

theorem completes_append_singleton (h : c.Stays items)
    (hfinish : c.finish (c.add ((c.batch items).getD (c.start item)) item) = some result) :
    c.Completes (items ++ [item]) result where
  stays first hfirst hne := by
    rcases List.prefix_concat_iff.mp hfirst with rfl | hfirst
    · exact absurd rfl hne
    · exact h.of_prefix hfirst
  finish := ⟨_, batch_append_singleton items item, hfinish⟩

/-- A batch is not empty when it is finished. -/
theorem Completes.exists_append (h : c.Completes items result) :
    ∃ init item, items = init ++ [item] ∧ c.Stays init ∧
      c.finish (c.add ((c.batch init).getD (c.start item)) item) = some result := by
  obtain ⟨b, hb, hfinish⟩ := h.finish
  rcases List.eq_nil_or_concat' items with rfl | ⟨init, item, rfl⟩
  · cases hb
  · rw [batch_append_singleton] at hb
    cases hb
    exact ⟨init, item, rfl, h.stays init (List.prefix_append _ _) (by simp), hfinish⟩

theorem Completes.ne_nil (h : c.Completes items result) : items ≠ [] := by
  obtain ⟨init, item, rfl, -⟩ := h.exists_append
  exact List.concat_ne_nil item init

/-! ### Runs -/

theorem runFrom_of_stays (v : Option V) (h : c.Stays items) :
    c.runFrom (none, v) items = (c.batch items, v) := by
  induction items using List.reverseRecOn with
  | nil => rfl
  | append_singleton items item ih =>
    have hfinish := h (items ++ [item]) _ List.prefix_rfl (batch_append_singleton items item)
    rw [runFrom_append_singleton, ih (h.of_prefix (List.prefix_append _ _)),
      step_of_open hfinish, batch_append_singleton]

theorem runFrom_of_completes (v : Option V) (h : c.Completes items result) :
    c.runFrom (none, v) items = (none, result.or v) := by
  obtain ⟨init, item, rfl, hstays, hfinish⟩ := h.exists_append
  rw [runFrom_append_singleton, runFrom_of_stays v hstays, step_of_finished hfinish]

/-- Once there is a value there is one. -/
theorem runFrom_isSome {state : Option B × Option V} (h : state.2.isSome) :
    (c.runFrom state items).2.isSome := by
  induction items generalizing state with
  | nil => exact h
  | cons item items ih =>
    refine ih ?_
    cases hfinish : c.finish (c.add (state.1.getD (c.start item)) item) with
    | none =>
      rw [step_of_open hfinish]
      exact h
    | some result =>
      rw [step_of_finished hfinish]
      simp [h]

/-- A run whose first batch gives a value has one. -/
theorem run_isSome_of_completes {value : V} (h : c.Completes first (some value))
    (hfirst : first <+: items) : (c.run items).2.isSome := by
  obtain ⟨rest, rfl⟩ := hfirst
  rw [run, runFrom_append, runFrom_of_completes none h]
  exact runFrom_isSome rfl

/-- A run is a run after which no batch is open, and then the open batch. -/
theorem exists_last_batch (items : List S) :
    ∃ done rest, items = done ++ rest ∧ (c.run done).1 = none ∧ c.Stays rest := by
  induction items using List.reverseRecOn with
  | nil => exact ⟨[], [], rfl, rfl, stays_nil⟩
  | append_singleton items item ih =>
    obtain ⟨done, rest, rfl, hdone, hrest⟩ := ih
    cases hfinish : c.finish (c.add ((c.batch rest).getD (c.start item)) item) with
    | none =>
      exact ⟨done, rest ++ [item], List.append_assoc _ _ _, hdone,
        stays_append_singleton hrest hfinish⟩
    | some result =>
      -- the item finishes the open batch
      refine ⟨done ++ rest ++ [item], [], (List.append_nil _).symm, ?_, stays_nil⟩
      have hstate : c.run done = (none, (c.run done).2) := Prod.ext hdone rfl
      rw [List.append_assoc, run, runFrom_append, ← run, hstate,
        runFrom_of_completes _ (completes_append_singleton hrest hfinish)]

/-- **What the items can complete, some order of them completes last.** -/
theorem exists_perm_run {value : V} (h : c.Completes first (some value))
    (hperm : items.Perm (first ++ rest)) :
    ∃ order, order.Perm items ∧ (c.run order).2 = some value := by
  obtain ⟨done, open_, rfl, hdone, hopen⟩ := c.exists_last_batch rest
  refine ⟨done ++ (first ++ open_), ?_, ?_⟩
  · refine List.Perm.trans ?_ hperm.symm
    rw [← List.append_assoc, ← List.append_assoc]
    exact List.perm_append_comm.append_right open_
  · have hstate : c.run done = (none, (c.run done).2) := Prod.ext hdone rfl
    rw [run, runFrom_append, ← run, hstate, runFrom_append, runFrom_of_completes _ h,
      runFrom_of_stays _ hopen]
    rfl

/-- Batches that all give the value kept do not change it. -/
theorem runFrom_of_agree (v : Option V)
    (h : ∀ batch result, batch <:+: items → c.Completes batch result → result = v) :
    (c.runFrom (none, v) items).2 = v := by
  -- finished batches that gave `v`, then an open batch
  have hsplit : ∃ done rest, items = done ++ rest ∧ c.Stays rest ∧
      c.runFrom (none, v) items = (c.batch rest, v) := by
    induction items using List.reverseRecOn with
    | nil => exact ⟨[], [], rfl, stays_nil, rfl⟩
    | append_singleton items item ih =>
      obtain ⟨done, rest, rfl, hrest, hrun⟩ := ih fun batch result hin =>
        h batch result (hin.trans (List.prefix_append _ _).isInfix)
      rw [runFrom_append_singleton, hrun]
      cases hfinish : c.finish (c.add ((c.batch rest).getD (c.start item)) item) with
      | none =>
        refine ⟨done, rest ++ [item], List.append_assoc _ _ _,
          stays_append_singleton hrest hfinish, ?_⟩
        rw [step_of_open hfinish, batch_append_singleton]
      | some result =>
        have hin : rest ++ [item] <:+: done ++ rest ++ [item] := ⟨done, [], by simp⟩
        have hv := h _ _ hin (completes_append_singleton hrest hfinish)
        refine ⟨done ++ rest ++ [item], [], (List.append_nil _).symm, stays_nil, ?_⟩
        rw [step_of_finished hfinish, hv, Option.or_self]
        rfl
  obtain ⟨done, rest, -, -, hrun⟩ := hsplit
  rw [hrun]

/-- Items that do not stay in one batch complete a first one. -/
theorem exists_completes (h : ¬ c.Stays items) :
    ∃ first result, first <+: items ∧ c.Completes first result := by
  induction items using List.reverseRecOn with
  | nil => exact absurd stays_nil h
  | append_singleton items item ih =>
    by_cases hstays : c.Stays items
    · cases hfinish : c.finish (c.add ((c.batch items).getD (c.start item)) item) with
      | none => exact absurd (stays_append_singleton hstays hfinish) h
      | some result => exact ⟨_, result, List.prefix_rfl, completes_append_singleton hstays hfinish⟩
    · obtain ⟨first, result, hfirst, hcompletes⟩ := ih hstays
      exact ⟨first, result, hfirst.trans (List.prefix_append _ _), hcompletes⟩

/-! ### What is kept -/

/-- The first batch of items that do not stay in one. -/
theorem exists_first_batch (h : ¬ c.Stays items) :
    ∃ first result rest, items = first ++ rest ∧ c.Completes first result ∧
      rest.length < items.length := by
  obtain ⟨first, result, ⟨rest, rfl⟩, hfirst⟩ := exists_completes h
  obtain ⟨init, item, rfl, -, -⟩ := hfirst.exists_append
  refine ⟨_, result, rest, rfl, hfirst, ?_⟩
  simp only [List.length_append, List.length_singleton]
  omega

theorem run_append_of_completes_none (h : c.Completes first none) :
    c.run (first ++ rest) = c.run rest := by
  rw [run, runFrom_append, runFrom_of_completes none h]
  rfl

/-- **A run that keeps nothing** is some batches that gave nothing, and then an
open one. -/
theorem run_eq_none_iff : (c.run items).2 = none ↔
    ∃ (batches : List (List S)) (rest : List S), items = batches.flatten ++ rest ∧
      (∀ batch ∈ batches, c.Completes batch none) ∧ c.Stays rest := by
  constructor
  · -- induction on the number of items, the first batch split off
    induction hlen : items.length using Nat.strongRecOn generalizing items with
    | _ n ih =>
      intro hnone
      by_cases hstays : c.Stays items
      · exact ⟨[], items, rfl, by simp, hstays⟩
      obtain ⟨first, result, rest, rfl, hfirst, hlt⟩ := exists_first_batch hstays
      cases result with
      | some value =>
        have hsome := run_isSome_of_completes hfirst (List.prefix_append first rest)
        rw [hnone] at hsome
        cases hsome
      | none =>
        rw [run_append_of_completes_none hfirst] at hnone
        obtain ⟨batches, last, rfl, hbatches, hlast⟩ := ih _ (hlen ▸ hlt) rfl hnone
        exact ⟨first :: batches, last, by simp, List.forall_mem_cons.mpr ⟨hfirst, hbatches⟩, hlast⟩
  · rintro ⟨batches, rest, rfl, hbatches, hrest⟩
    induction batches with
    | nil =>
      rw [List.flatten_nil, List.nil_append, run, runFrom_of_stays none hrest]
    | cons first batches ih =>
      obtain ⟨hfirst, hbatches⟩ := List.forall_mem_cons.mp hbatches
      rw [List.flatten_cons, List.append_assoc, run_append_of_completes_none hfirst]
      exact ih hbatches

/-- A value that is kept was kept before, or some batch gave it. -/
theorem exists_completes_of_runFrom {v : Option V} {value : V}
    (h : (c.runFrom (none, v) items).2 = some value) :
    v = some value ∨ ∃ batch, batch <:+: items ∧ c.Completes batch (some value) := by
  induction hlen : items.length using Nat.strongRecOn generalizing items v with
  | _ n ih =>
    by_cases hstays : c.Stays items
    · rw [runFrom_of_stays v hstays] at h
      exact .inl h
    obtain ⟨first, result, rest, rfl, hfirst, hlt⟩ := exists_first_batch hstays
    rw [runFrom_append, runFrom_of_completes v hfirst] at h
    rcases ih _ (hlen ▸ hlt) h rfl with hkept | ⟨batch, hin, hbatch⟩
    · cases result with
      | none => exact .inl hkept
      | some result =>
        cases hkept
        exact .inr ⟨first, (List.prefix_append first rest).isInfix, hfirst⟩
    · exact .inr ⟨batch, hin.trans (List.suffix_append first rest).isInfix, hbatch⟩

/-- **What a run keeps**, one of its batches gave. -/
theorem exists_completes_of_run {value : V} (h : (c.run items).2 = some value) :
    ∃ batch, batch <:+: items ∧ c.Completes batch (some value) :=
  (exists_completes_of_runFrom h).resolve_left nofun

end Collector
