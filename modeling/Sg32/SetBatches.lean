/-
Batches of the rows of one set.

The first row of a batch decides what places there are; the batch is full when
the last place needed is filled.

* `batch_eq` — the batch of some rows, by the first of them;
* `completes_iff` — what completes a batch, and what it gives;
* `usedUp_iff`, `uncut_iff` — when some order of the rows keeps nothing, and
  when all do;
* `orderFree_iff` — when all orders of some rows keep the same.
-/
import Sg32.EncodedSet

namespace Sg32

open Rust FecBatch SlotRingBuffer Collector

namespace EncodedSet

variable (set : EncodedSet)

/-! ### Batches of rows -/

/-- A code shred comes first. -/
def namedBy : List ℕ → Bool
  | [] => false
  | row :: _ => decide (set.num_data ≤ row)

/-- The places that the rows fill. -/
def placesOf (named : Bool) (rows : List ℕ) : Finset ℕ :=
  (rows.filterMap (set.place named)).toFinset

/-- The parent, once a data shred arrived. -/
def parentOf (rows : List ℕ) : UInt64 :=
  if ∃ row ∈ rows, row < set.num_data then set.parentSlot else 0

/-- The batch of these rows. -/
def collected (rows : List ℕ) : Collected where
  named := set.namedBy rows
  rows := set.placesOf (set.namedBy rows) rows
  parent_slot := set.parentOf rows

/-- All rows are rows of the set. -/
def RowsOf (set : EncodedSet) (rows : List ℕ) : Prop :=
  ∀ row ∈ rows, row < set.num_data + set.num_code

variable {set} {libs : Libs} {named : Bool} {rows rows' batch : List ℕ} {row : ℕ}

theorem mem_placesOf {r : ℕ} :
    r ∈ set.placesOf named rows ↔ ∃ row ∈ rows, set.place named row = some r := by
  simp [placesOf]

theorem placesOf_mono (h : rows ⊆ rows') :
    set.placesOf named rows ⊆ set.placesOf named rows' := by
  intro r hr
  obtain ⟨row, hrow, hplace⟩ := mem_placesOf.mp hr
  exact mem_placesOf.mpr ⟨row, h hrow, hplace⟩

theorem filled_placesOf (h : set.RowsOf rows) : set.Filled named (set.placesOf named rows) := by
  intro r hr
  obtain ⟨row, hrow, hplace⟩ := mem_placesOf.mp hr
  exact ⟨row, h row hrow, hplace⟩

theorem placesOf_append_singleton (rows : List ℕ) (row : ℕ) :
    set.placesOf named (rows ++ [row]) =
      (set.place named row).elim (set.placesOf named rows)
        fun r => insert r (set.placesOf named rows) := by
  rw [placesOf, List.filterMap_append]
  cases hplace : set.place named row with
  | none => simp [hplace, placesOf]
  | some r =>
    ext r'
    simp [hplace, placesOf]

theorem card_placesOf_le (set : EncodedSet) (named : Bool) (rows : List ℕ) :
    (set.placesOf named rows).card ≤ rows.length :=
  le_trans (List.toFinset_card_le _) (List.length_filterMap_le _ _)

/-- Different rows fill different places. -/
theorem card_placesOf (hnodup : rows.Nodup)
    (hplaced : ∀ row ∈ rows, (set.place named row).isSome) :
    (set.placesOf named rows).card = rows.length := by
  have hinj : ∀ row row' r, r ∈ set.place named row → r ∈ set.place named row' → row = row' :=
    fun row row' r hr hr' => place_inj hr hr'
  rw [placesOf, List.toFinset_card_of_nodup (hnodup.filterMap hinj),
    List.length_filterMap_eq_countP]
  exact List.countP_eq_length.mpr hplaced

theorem parentOf_append_singleton (rows : List ℕ) (row : ℕ) :
    set.parentOf (rows ++ [row]) =
      if row < set.num_data ∧ set.parentOf rows = 0 then set.parentSlot
      else set.parentOf rows := by
  -- the first data shred sets the parent, later ones find it set
  by_cases hdata : ∃ row ∈ rows, row < set.num_data
  · obtain ⟨row', hrow', hlt⟩ := hdata
    have hold : set.parentOf rows = set.parentSlot := if_pos ⟨row', hrow', hlt⟩
    have hnew : set.parentOf (rows ++ [row]) = set.parentSlot :=
      if_pos ⟨row', List.mem_append_left _ hrow', hlt⟩
    rw [hnew, hold, ite_self]
  · have hold : set.parentOf rows = 0 := if_neg hdata
    rw [hold]
    by_cases hlt : row < set.num_data
    · rw [if_pos ⟨hlt, rfl⟩]
      exact if_pos ⟨row, by simp, hlt⟩
    · rw [if_neg fun h => hlt h.1]
      refine if_neg ?_
      rintro ⟨row', hrow', hlt'⟩
      rcases List.mem_append.mp hrow' with hmem | hmem
      · exact hdata ⟨row', hmem, hlt'⟩
      · rw [List.mem_singleton.mp hmem] at hlt'
        exact hlt hlt'

theorem namedBy_append (hne : rows ≠ []) (rows' : List ℕ) :
    set.namedBy (rows ++ rows') = set.namedBy rows := by
  cases rows with
  | nil => exact absurd rfl hne
  | cons row rows => rfl

/-- **The batch of some rows**: the first one decides what places there are. -/
theorem batch_eq (libs : Libs) (hne : rows ≠ []) :
    (set.collector libs).batch rows = some (set.collected rows) := by
  -- induction on the rows, the last one split off; the first one opens the batch
  induction rows using List.reverseRecOn with
  | nil => exact absurd rfl hne
  | append_singleton rows row ih =>
    rw [batch_append_singleton, Option.some.injEq]
    by_cases hnil : rows = []
    · subst hnil
      have hparent : set.parentOf ([] ++ [row]) = _ := parentOf_append_singleton [] row
      have hplaces : ∀ named, set.placesOf named ([] ++ [row]) =
          (set.place named row).elim ∅ fun r => insert r ∅ :=
        fun named => placesOf_append_singleton [] row
      simp only [collected, hparent, hplaces]
      rfl
    · rw [ih hnil, Option.getD_some]
      simp only [collected, namedBy_append hnil, placesOf_append_singleton,
        parentOf_append_singleton]
      rfl

/-- What the batch of the rows can be cut into, once it is recovered. -/
def cut (set : EncodedSet) (rows : List ℕ) : Option DeshredResult :=
  (set.recovered (set.namedBy rows) (set.placesOf (set.namedBy rows) rows)).bind blockIn

/-- The block that the batch of the rows publishes. -/
def blockOf (set : EncodedSet) (libs : Libs) (rows : List ℕ) : Option SlotData :=
  (set.cut rows).map (set.publishedBlock libs (set.parentOf rows))

theorem finish_collected (libs : Libs) (rows : List ℕ) :
    (set.collector libs).finish (set.collected rows) =
      (set.recovered (set.namedBy rows) (set.placesOf (set.namedBy rows) rows)).map
        fun payloads => (blockIn payloads).map (set.publishedBlock libs (set.parentOf rows)) := rfl

theorem finish_eq_none_iff (h : set.RowsOf rows) :
    (set.collector libs).finish (set.collected rows) = none ↔
      (set.placesOf (set.namedBy rows) rows).card < set.needed (set.namedBy rows) := by
  rw [finish_collected, Option.map_eq_none_iff, recovered_eq_none_iff (filled_placesOf h)]

/-- The batch of the rows needs more of them. -/
def Waits (set : EncodedSet) (rows : List ℕ) : Prop :=
  (set.placesOf (set.namedBy rows) rows).card < set.needed (set.namedBy rows)

/-- The last row fills the last place that the batch needs. -/
structure Full (set : EncodedSet) (batch : List ℕ) : Prop where
  before : (set.placesOf (set.namedBy batch) batch.dropLast).card < set.needed (set.namedBy batch)
  now : ¬ set.Waits batch

theorem Full.ne_nil (h : set.Full rows) : rows ≠ [] := by
  rintro rfl
  exact h.now (set.one_le_needed _)

theorem Waits.of_prefix (h : set.Waits rows) (hfirst : rows' <+: rows) : set.Waits rows' := by
  by_cases hne : rows' = []
  · subst hne
    exact set.one_le_needed _
  obtain ⟨rest, rfl⟩ := hfirst
  rw [Waits, namedBy_append hne] at h
  exact lt_of_le_of_lt
    (Finset.card_le_card (placesOf_mono (List.subset_append_left rows' rest))) h

/-- Rows stay in an open batch as long as it needs more. -/
theorem stays_iff (h : set.RowsOf rows) :
    (set.collector libs).Stays rows ↔ set.Waits rows := by
  constructor
  · intro hstays
    by_cases hne : rows = []
    · subst hne
      exact set.one_le_needed _
    · exact (finish_eq_none_iff h).mp (hstays rows _ List.prefix_rfl (batch_eq libs hne))
  · -- fewer rows fill no more places
    intro hfew first b hfirst hb
    by_cases hne : first = []
    · subst hne
      cases hb
    rw [batch_eq libs hne] at hb
    cases hb
    exact (finish_eq_none_iff fun row hrow => h row (hfirst.subset hrow)).mpr
      (hfew.of_prefix hfirst)

/-- Rows wait in the batch that they open together with the next one. -/
theorem waits_append_singleton_iff :
    set.Waits rows ↔ (set.placesOf (set.namedBy (rows ++ [row])) rows).card <
      set.needed (set.namedBy (rows ++ [row])) := by
  by_cases hne : rows = []
  · subst hne
    exact iff_of_true (set.one_le_needed _) (set.one_le_needed _)
  · rw [Waits, namedBy_append hne]

theorem full_append_singleton_iff (h : set.Waits rows) :
    set.Full (rows ++ [row]) ↔ ¬ set.Waits (rows ++ [row]) := by
  constructor
  · exact Full.now
  · intro hnow
    refine ⟨?_, hnow⟩
    rw [List.dropLast_concat, ← waits_append_singleton_iff]
    exact h

theorem Full.waits_dropLast (h : set.Full batch) : set.Waits batch.dropLast := by
  obtain ⟨init, row, rfl⟩ := (List.eq_nil_or_concat' batch).resolve_left h.ne_nil
  have hbefore := h.before
  rw [List.dropLast_concat] at hbefore ⊢
  exact waits_append_singleton_iff.mpr hbefore

theorem finish_eq_some (libs : Libs) (h : set.RowsOf rows) (hnow : ¬ set.Waits rows) :
    (set.collector libs).finish (set.collected rows) = some (set.blockOf libs rows) := by
  have hsome := (recovered_eq_none_iff (filled_placesOf h)).not.mpr hnow
  obtain ⟨payloads, hpayloads⟩ := Option.ne_none_iff_exists'.mp hsome
  rw [finish_collected, blockOf, cut, hpayloads]
  rfl

/-- **What completes a batch**: rows of which the last one fills the last place. -/
theorem completes_iff (h : set.RowsOf rows) {result : Option SlotData} :
    (set.collector libs).Completes rows result ↔
      set.Full rows ∧ result = set.blockOf libs rows := by
  constructor
  · intro hcompletes
    obtain ⟨b, hb, hfinish⟩ := hcompletes.finish
    obtain ⟨init, row, rfl, hstays, -⟩ := hcompletes.exists_append
    rw [batch_eq libs (by simp)] at hb
    cases hb
    have hnow : ¬ set.Waits (init ++ [row]) := by
      intro hwaits
      rw [(finish_eq_none_iff h).mpr hwaits] at hfinish
      cases hfinish
    rw [finish_eq_some libs h hnow] at hfinish
    refine ⟨(full_append_singleton_iff ?_).mpr hnow, (Option.some.inj hfinish).symm⟩
    exact (stays_iff fun r hr => h r (List.mem_append_left _ hr)).mp hstays
  · rintro ⟨hfull, rfl⟩
    obtain ⟨init, row, rfl⟩ := (List.eq_nil_or_concat' rows).resolve_left hfull.ne_nil
    have hbefore := hfull.waits_dropLast
    rw [List.dropLast_concat] at hbefore
    have hstays : (set.collector libs).Stays init :=
      (stays_iff fun r hr => h r (List.mem_append_left _ hr)).mpr hbefore
    refine ⟨fun first hfirst hne => ?_, _, batch_eq libs hfull.ne_nil,
      finish_eq_some libs h hfull.now⟩
    rcases List.prefix_concat_iff.mp hfirst with rfl | hfirst
    · exact absurd rfl hne
    · exact hstays.of_prefix hfirst

/-- A full batch fills exactly the places it needs. -/
theorem Full.card_eq (h : set.Full rows) :
    (set.placesOf (set.namedBy rows) rows).card = set.needed (set.namedBy rows) := by
  refine le_antisymm ?_ (Nat.not_lt.mp h.now)
  obtain ⟨init, row, rfl⟩ := (List.eq_nil_or_concat' rows).resolve_left h.ne_nil
  -- one place fewer was not enough
  have hbefore := h.before
  rw [List.dropLast_concat] at hbefore
  rw [placesOf_append_singleton]
  cases set.place (set.namedBy (init ++ [row])) row with
  | none => exact hbefore.le
  | some r => exact le_trans (Finset.card_insert_le _ _) hbefore

/-- As many different rows as needed, each with a place, fill a batch. -/
theorem full_of_nodup (hnodup : rows.Nodup)
    (hplaced : ∀ row ∈ rows, (set.place (set.namedBy rows) row).isSome)
    (hlen : rows.length = set.needed (set.namedBy rows)) : set.Full rows where
  before := by
    have hle := card_placesOf_le set (set.namedBy rows) rows.dropLast
    have hpos := set.one_le_needed (set.namedBy rows)
    rw [List.length_dropLast] at hle
    omega
  now := by
    rw [Waits, card_placesOf hnodup hplaced, hlen]
    exact lt_irrefl _

/-! ### All orders of some rows -/

/-- The collector keeps the same for every order of the rows. -/
def OrderFree (libs : Libs) (set : EncodedSet) (rows : List ℕ) : Prop :=
  ∀ order order', order.Perm rows → order'.Perm rows →
    ((set.collector libs).run order).2 = ((set.collector libs).run order').2

/-- No batch of the rows can be cut into transactions. -/
def Uncut (set : EncodedSet) (rows : List ℕ) : Prop :=
  ∀ batch, batch.Subperm rows → set.Full batch → set.cut batch = none

/-- The rows can be used up without a block: full batches that cannot be cut
up, and a rest that waits. -/
def UsedUp (set : EncodedSet) (rows : List ℕ) : Prop :=
  ∃ (batches : List (List ℕ)) (rest : List ℕ), (batches.flatten ++ rest).Perm rows ∧
    (∀ batch ∈ batches, set.Full batch ∧ set.cut batch = none) ∧ set.Waits rest

/-- All batches of the rows that can be cut up publish the same block, and the
rows cannot be used up without it. -/
def OneBlock (set : EncodedSet) (libs : Libs) (rows : List ℕ) : Prop :=
  (∃ block, ∀ batch, batch.Subperm rows → set.Full batch → ∀ result, set.cut batch = some result →
    set.publishedBlock libs (set.parentOf batch) result = block) ∧ ¬ set.UsedUp rows

theorem RowsOf.of_subperm (h : set.RowsOf rows) (hsub : rows'.Subperm rows) : set.RowsOf rows' :=
  fun row hrow => h row (hsub.subset hrow)

/-- The batches of an order are among its rows. -/
theorem subperm_of_mem_batches {batches : List (List ℕ)} {batch rest : List ℕ}
    (hperm : (batches.flatten ++ rest).Perm rows) (hmem : batch ∈ batches) : batch.Subperm rows :=
  ((List.sublist_flatten_of_mem hmem).trans
    (List.sublist_append_left _ rest)).subperm.trans hperm.subperm

theorem blockOf_eq_none_iff : set.blockOf libs rows = none ↔ set.cut rows = none :=
  Option.map_eq_none_iff

theorem usedUp_iff (libs : Libs) (h : set.RowsOf rows) :
    set.UsedUp rows ↔ ∃ order, order.Perm rows ∧ ((set.collector libs).run order).2 = none := by
  -- the batches and the rest of the order, one by one
  have hbatch : ∀ batch, batch.Subperm rows → ((set.collector libs).Completes batch none ↔
      set.Full batch ∧ set.cut batch = none) := by
    intro batch hsub
    rw [completes_iff (h.of_subperm hsub), eq_comm, blockOf_eq_none_iff]
  have hwaits : ∀ (batches : List (List ℕ)) (rest : List ℕ), (batches.flatten ++ rest).Perm rows →
      ((set.collector libs).Stays rest ↔ set.Waits rest) := by
    intro batches rest hperm
    exact stays_iff (h.of_subperm ((List.sublist_append_right _ rest).subperm.trans hperm.subperm))
  constructor
  · rintro ⟨batches, rest, hperm, hbatches, hrest⟩
    refine ⟨_, hperm, run_eq_none_iff.mpr ⟨batches, rest, rfl, fun batch hmem => ?_,
      (hwaits batches rest hperm).mpr hrest⟩⟩
    exact (hbatch batch (subperm_of_mem_batches hperm hmem)).mpr (hbatches batch hmem)
  · rintro ⟨order, hperm, hrun⟩
    obtain ⟨batches, rest, rfl, hbatches, hrest⟩ := run_eq_none_iff.mp hrun
    refine ⟨batches, rest, hperm, fun batch hmem => ?_, (hwaits batches rest hperm).mp hrest⟩
    exact (hbatch batch (subperm_of_mem_batches hperm hmem)).mp (hbatches batch hmem)

/-- Rows that fill a batch in any order, when all their batches can be cut up. -/
theorem not_usedUp (hwaits : ∀ order, order.Perm rows → ¬ set.Waits order)
    (hcut : ∀ batch, batch.Subperm rows → set.Full batch → set.cut batch ≠ none) :
    ¬ set.UsedUp rows := by
  rintro ⟨batches, rest, hperm, hbatches, hrest⟩
  cases batches with
  | nil => exact hwaits rest hperm hrest
  | cons batch batches =>
    obtain ⟨hfull, hnone⟩ := hbatches batch List.mem_cons_self
    exact hcut batch (subperm_of_mem_batches hperm List.mem_cons_self) hfull hnone

/-- A batch of the rows that can be cut up is published last in some order. -/
theorem exists_perm_run_of_full (libs : Libs) (h : set.RowsOf rows) {batch : List ℕ}
    (hsub : batch.Subperm rows) (hfull : set.Full batch) {result : DeshredResult}
    (hcut : set.cut batch = some result) :
    ∃ order, order.Perm rows ∧ ((set.collector libs).run order).2 =
      some (set.publishedBlock libs (set.parentOf batch) result) := by
  have hcompletes : (set.collector libs).Completes batch (set.blockOf libs batch) :=
    (completes_iff (h.of_subperm hsub)).mpr ⟨hfull, rfl⟩
  rw [blockOf, hcut, Option.map_some] at hcompletes
  obtain ⟨middle, hmiddle, hsublist⟩ := hsub
  obtain ⟨rest, hrest⟩ := hsublist.exists_perm_append
  exact exists_perm_run hcompletes (hrest.trans (hmiddle.append_right rest))

/-- What is kept was published by a batch of the rows. -/
theorem exists_full_of_run (h : set.RowsOf rows) {order : List ℕ} (hperm : order.Perm rows)
    {block : SlotData} (hrun : ((set.collector libs).run order).2 = some block) :
    ∃ batch, batch.Subperm rows ∧ set.Full batch ∧ ∃ result, set.cut batch = some result ∧
      block = set.publishedBlock libs (set.parentOf batch) result := by
  obtain ⟨batch, hin, hcompletes⟩ := exists_completes_of_run hrun
  have hsub : batch.Subperm rows := hin.sublist.subperm.trans hperm.subperm
  obtain ⟨hfull, hblock⟩ := (completes_iff (h.of_subperm hsub)).mp hcompletes
  obtain ⟨result, hcut, rfl⟩ := Option.map_eq_some_iff.mp hblock.symm
  exact ⟨batch, hsub, hfull, result, hcut, rfl⟩

/-- Nothing is kept in any order when no batch can be cut up. -/
theorem uncut_iff (libs : Libs) (h : set.RowsOf rows) :
    set.Uncut rows ↔ ∀ order, order.Perm rows → ((set.collector libs).run order).2 = none := by
  constructor
  · intro huncut order hperm
    by_contra hsome
    obtain ⟨block, hrun⟩ := Option.ne_none_iff_exists'.mp hsome
    obtain ⟨batch, hsub, hfull, result, hcut, -⟩ := exists_full_of_run h hperm hrun
    cases (huncut batch hsub hfull).symm.trans hcut
  · intro hnone batch hsub hfull
    by_contra hsome
    obtain ⟨result, hcut⟩ := Option.ne_none_iff_exists'.mp hsome
    obtain ⟨order, hperm, hrun⟩ := exists_perm_run_of_full libs h hsub hfull hcut
    cases (hnone order hperm).symm.trans hrun

/-- **When the order of some rows does not matter**: nothing can be published, or
one block in whatever order. -/
theorem orderFree_iff (libs : Libs) (h : set.RowsOf rows) :
    OrderFree libs set rows ↔ set.Uncut rows ∨ set.OneBlock libs rows := by
  constructor
  · intro hfree
    rw [or_iff_not_imp_left, uncut_iff libs h]
    intro hsome
    push Not at hsome
    obtain ⟨order, hperm, hrun⟩ := hsome
    obtain ⟨block, hrun⟩ := Option.ne_none_iff_exists'.mp hrun
    refine ⟨⟨block, fun batch hsub hfull result hcut => ?_⟩, ?_⟩
    · obtain ⟨order', hperm', hrun'⟩ := exists_perm_run_of_full libs h hsub hfull hcut
      have heq := hfree order order' hperm hperm'
      rw [hrun, hrun'] at heq
      exact (Option.some.inj heq).symm
    · rw [usedUp_iff libs h]
      rintro ⟨order', hperm', hnone⟩
      cases hrun.symm.trans ((hfree order order' hperm hperm').trans hnone)
  · rintro (huncut | ⟨⟨block, hblock⟩, hused⟩) order order' hperm hperm'
    · have hnone := (uncut_iff libs h).mp huncut
      rw [hnone order hperm, hnone order' hperm']
    · rw [usedUp_iff libs h] at hused
      push Not at hused
      have hkept : ∀ order, order.Perm rows →
          ((set.collector libs).run order).2 = some block := by
        intro order hperm
        obtain ⟨block', hrun⟩ := Option.ne_none_iff_exists'.mp (hused order hperm)
        obtain ⟨batch, hsub, hfull, result, hcut, rfl⟩ := exists_full_of_run h hperm hrun
        rw [hrun, hblock batch hsub hfull result hcut]
      rw [hkept order hperm, hkept order' hperm']

end EncodedSet

end Sg32
