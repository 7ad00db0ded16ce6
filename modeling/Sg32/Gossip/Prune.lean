/-
Pruning the table of gossiped values (`crds.rs`, and the loop in `lib.rs`).

A node publishes its wallclock in milliseconds since the epoch.  The cutoff of
a prune is fifteen minutes before now in seconds since the epoch, and is
compared with the wallclocks as it is.

* `prune_keeps_iff` — one prune keeps the last fifteen minutes exactly if no
  wallclock lies between the cutoff in seconds and the one in milliseconds;
* `prunes_keep_iff` — so does every prune of a run of merges and prunes;
* `run_eq_mergeAll` — as long as the wallclocks of a run exceed its clocks in
  seconds, nothing is ever pruned.
-/
import Sg32.Foundation.Panic
import Sg32.Gossip.Crds

namespace Sg32

open Rust

/-! ### The clock -/

/-- The time since the epoch, as the system clock reports it. -/
structure Duration where
  secs : UInt64
  nanos : UInt32
  nanos_lt : nanos.toNat < 10 ^ 9

namespace Duration

def asSecs (since : Duration) : UInt64 := since.secs

def asMillis (since : Duration) : ℕ := since.secs.toNat * 1000 + since.nanos.toNat / 10 ^ 6

theorem asMillis_bounds (since : Duration) :
    since.secs.toNat * 1000 ≤ since.asMillis ∧ since.asMillis < since.secs.toNat * 1000 + 1000 := by
  have hnanos := since.nanos_lt
  unfold asMillis
  omega

end Duration

def now (since : Duration) : UInt64 := since.asSecs

namespace CrdsTable

def prune (build : Build) (since : Duration) (table : CrdsTable) : Checked CrdsTable := do
  let cutoff ← subU64 build (now since) (15 * 60)
  .ok ⟨NewestWins.retain (fun _ value => value.wallclock > cutoff) table.entries⟩

/-! ### One prune -/

/-- A prune removes the values of fifteen minutes ago and before, and no
others. -/
def KeepsLastFifteenMinutes (build : Build) (since : Duration) (table : CrdsTable) : Prop :=
  ∃ pruned, table.prune build since = .ok pruned ∧
    ∀ pk value, pruned.entries.lookup pk = some value ↔
      table.entries.lookup pk = some value ∧ since.asMillis < stamp value + 15 * 60 * 1000

/-- Every wallclock of fifteen minutes ago and before is at most the cutoff in
seconds.  In the first fifteen minutes of the epoch the cutoff wraps around,
if that does not panic. -/
def CutoffSeparates (build : Build) (since : Duration) (table : CrdsTable) : Prop :=
  if 15 * 60 ≤ since.secs.toNat then
    ∀ pk value, table.entries.lookup pk = some value →
      stamp value + 15 * 60 * 1000 ≤ since.asMillis → stamp value + 15 * 60 ≤ since.secs.toNat
  else
    build = .release ∧ ∀ pk value, table.entries.lookup pk = some value →
      2 ^ 64 + since.secs.toNat < stamp value + 15 * 60

/-- What a prune keeps, by the cutoff it computes. -/
theorem keepsLastFifteenMinutes_of_cutoff {build : Build} {since : Duration} {table : CrdsTable}
    {cutoff : UInt64} (hcutoff : subU64 build (now since) (15 * 60) = .ok cutoff) :
    KeepsLastFifteenMinutes build since table ↔
      ∀ pk value, table.entries.lookup pk = some value →
        (cutoff.toNat < stamp value ↔ since.asMillis < stamp value + 15 * 60 * 1000) := by
  have hprune : table.prune build since =
      .ok ⟨NewestWins.retain (fun _ value => value.wallclock > cutoff) table.entries⟩ := by
    rw [prune, hcutoff, ok_bind]
  have hkept : ∀ pk value,
      (NewestWins.retain (fun _ value => decide (value.wallclock > cutoff))
          table.entries).lookup pk = some value ↔
        table.entries.lookup pk = some value ∧ cutoff.toNat < stamp value := by
    intro pk value
    rw [NewestWins.lookup_retain_eq_some_iff, decide_eq_true_iff, gt_iff_lt,
      UInt64.lt_iff_toNat_lt]
    rfl
  constructor
  · rintro ⟨pruned, hpruned, hwindow⟩ pk value hlookup
    rw [hprune, Except.ok.injEq] at hpruned
    subst hpruned
    have hiff := (hkept pk value).symm.trans (hwindow pk value)
    rwa [and_congr_right_iff, forall_prop_of_true hlookup] at hiff
  · intro h
    refine ⟨_, hprune, fun pk value => (hkept pk value).trans ?_⟩
    exact and_congr_right (h pk value)

/-- **One prune** keeps the last fifteen minutes exactly if no wallclock lies
between the two cutoffs. -/
theorem prune_keeps_iff (build : Build) (since : Duration) (table : CrdsTable) :
    KeepsLastFifteenMinutes build since table ↔ CutoffSeparates build since table := by
  obtain ⟨hmillis, hmillis'⟩ := since.asMillis_bounds
  have hsecs : (now since).toNat = since.secs.toNat := rfl
  have hminutes : (15 * 60 : UInt64).toNat = 15 * 60 := rfl
  unfold CutoffSeparates
  split_ifs with hle
  · -- the cutoff in seconds is below the one in milliseconds
    obtain ⟨hcutoff, htoNat⟩ := subU64_ok build (x := now since) (y := 15 * 60) (by omega)
    rw [keepsLastFifteenMinutes_of_cutoff hcutoff, htoNat]
    refine forall₃_congr fun pk value _ => ?_
    omega
  · cases build with
    | debug =>
      -- the subtraction panics, so there is no pruned table
      have hpanic : subU64 .debug (now since) (15 * 60) = .error .arithmeticOverflow := by
        refine Build.check_debug_of_not ?_ _
        rwa [hsecs, hminutes]
      refine iff_of_false ?_ (by simp)
      rintro ⟨pruned, hpruned, -⟩
      rw [prune, hpanic, error_bind] at hpruned
      cases hpruned
    | release =>
      have hcutoff : subU64 .release (now since) (15 * 60) = .ok (now since - 15 * 60) :=
        Build.check_release _ _
      have htoNat : (now since - 15 * 60).toNat = 2 ^ 64 + since.secs.toNat - 15 * 60 := by
        rw [UInt64.toNat_sub, hsecs, hminutes]
        omega
      rw [keepsLastFifteenMinutes_of_cutoff hcutoff, htoNat]
      simp only [true_and]
      refine forall₃_congr fun pk value _ => ?_
      omega

/-! ### Runs -/

/-- What the gossip loop does to its table. -/
inductive TableCall
  | merge (value : CrdsValue)
  | prune (since : Duration)

def call (build : Build) (table : CrdsTable) : TableCall → Checked CrdsTable
  | .merge value => .ok (table.merge value).1
  | .prune since => table.prune build since

/-- The table after a sequence of calls. -/
def run (build : Build) (calls : List TableCall) : Checked CrdsTable :=
  calls.foldlM (call build) new

theorem run_append (build : Build) (calls : List TableCall) (last : TableCall) :
    run build (calls ++ [last]) = run build calls >>= fun table => call build table last := by
  rw [run, foldlM_concat]
  rfl

/-- The values that a run merges. -/
def merged (calls : List TableCall) : List CrdsValue :=
  calls.filterMap fun
    | .merge value => some value
    | .prune _ => none

theorem mem_merged {calls : List TableCall} {value : CrdsValue} :
    value ∈ merged calls ↔ .merge value ∈ calls := by
  rw [merged, List.mem_filterMap]
  constructor
  · rintro ⟨call, hmem, hcall⟩
    cases call <;> simp_all
  · intro hmem
    exact ⟨.merge value, hmem, rfl⟩

theorem mem_of_lookup_mergeAll {values : List CrdsValue} {pk : Pubkey} {value : CrdsValue}
    (h : (mergeAll values).entries.lookup pk = some value) : value ∈ values := by
  rw [lookup_mergeAll] at h
  exact (List.mem_filter.mp (List.argmax_mem h)).1

theorem prune_eq_self {build : Build} {since : Duration} {table : CrdsTable}
    (hsecs : 15 * 60 ≤ since.secs.toNat)
    (h : ∀ pk value, table.entries.lookup pk = some value →
      since.secs.toNat < stamp value + 15 * 60) :
    table.prune build since = .ok table := by
  obtain ⟨hcutoff, htoNat⟩ := subU64_ok build (x := now since) (y := 15 * 60) hsecs
  rw [prune, hcutoff, ok_bind, NewestWins.retain_eq_self]
  intro pk value hlookup
  have hnewer := h pk value hlookup
  have hlt : (now since - 15 * 60).toNat < value.wallclock.toNat := by
    rw [htoNat]
    exact Nat.sub_lt_right_of_lt_add hsecs hnewer
  exact decide_eq_true (UInt64.lt_iff_toNat_lt.mpr hlt)

/-- **Nothing is pruned** in a run whose wallclocks, as numbers, exceed the
cutoffs in seconds. -/
theorem run_eq_mergeAll {build : Build} {calls : List TableCall}
    (hsecs : ∀ since, .prune since ∈ calls → 15 * 60 ≤ since.secs.toNat)
    (h : ∀ since value, .prune since ∈ calls → .merge value ∈ calls →
      since.secs.toNat < stamp value + 15 * 60) :
    run build calls = .ok (mergeAll (merged calls)) := by
  induction calls using List.reverseRecOn with
  | nil => rfl
  | append_singleton calls last ih =>
    have hrun := ih (fun since hsince => hsecs since (List.mem_append_left _ hsince))
      fun since value hsince hvalue =>
        h since value (List.mem_append_left _ hsince) (List.mem_append_left _ hvalue)
    rw [run_append, hrun, ok_bind]
    cases last with
    | merge value => simp [call, merged, mergeAll]
    | prune since =>
      have hmerged : merged (calls ++ [.prune since]) = merged calls := by simp [merged]
      rw [call, hmerged]
      refine prune_eq_self (hsecs since (by simp)) fun pk value hlookup => ?_
      have hvalue := mem_merged.mp (mem_of_lookup_mergeAll hlookup)
      exact h since value (by simp) (List.mem_append_left _ hvalue)

/-- `P` holds of the clock and the table of every prune that a run reaches. -/
def EveryPrune (build : Build) (P : Duration → CrdsTable → Prop) (calls : List TableCall) : Prop :=
  ∀ before since after table, calls = before ++ .prune since :: after →
    run build before = .ok table → P since table

/-- **Every prune of a run** keeps the last fifteen minutes exactly if none
finds a wallclock between the two cutoffs. -/
theorem prunes_keep_iff (build : Build) (calls : List TableCall) :
    EveryPrune build (KeepsLastFifteenMinutes build) calls ↔
      EveryPrune build (CutoffSeparates build) calls := by
  unfold EveryPrune
  simp only [prune_keeps_iff]

/-- The time `1700000000` s. -/
def sampleSince : Duration := ⟨1700000000, 0, by decide⟩

/-- A contact info of twenty minutes ago, in milliseconds. -/
def staleContact : CrdsValue := sampleContact samplePubkey (1700000000000 - 20 * 60 * 1000)

theorem prune_keeps_stale :
    ¬ ∀ build calls, EveryPrune build (KeepsLastFifteenMinutes build) calls := by
  intro h
  have hkeeps := (prune_keeps_iff _ _ _).mp <|
    h .debug [.merge staleContact, .prune sampleSince] [.merge staleContact] sampleSince [] _ rfl
      rfl
  rw [CutoffSeparates, if_pos (by decide)] at hkeeps
  exact absurd (hkeeps samplePubkey staleContact (by decide +kernel) (by decide)) (by decide)

end CrdsTable

end Sg32
