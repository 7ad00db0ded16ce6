/-
The order in which the shreds of one set arrive.

A set with 32 data shreds has one block, whatever arrives first; its parent
slot is lost when the batch recovered last has code shreds only.  A set with
another number of data shreds is recovered or not, rightly or wrongly, by the
kind of shred that comes first.

* `sameInEveryOrder_iff_orderFree`, `sameInEveryOrder_lastSlot_iff` — the node
  does what the collector does, below the last slot and at it;
* `orderFree_usual_iff` — 32 data shreds, for any collection of rows;
* `arrivalOrder_iff` — any set, any collection of rows.
-/
import Sg32.AgreedBlock
import Sg32.Pipeline

namespace Sg32

open Rust FecBatch SlotRingBuffer Collector

namespace EncodedSet

variable {set : EncodedSet} {libs : Libs} {named : Bool} {rows rows' : List ℕ} {row : ℕ}

/-! ### Two orders -/

/-- The deliveries of these rows, each with the answers of the file system. -/
def deliveries (set : EncodedSet) (order : List (ℕ × FileIo)) : List Delivery :=
  order.map fun d => (set.shred d.1, d.2)

/-- In whatever order the rows arrive at a node that has received nothing, it
processes them all, and the ring buffer has the same block for the slot
afterwards, or none. -/
def SameInEveryOrder (libs : Libs) (build : Build) (file_store : FlatFileStore) (disk : Disk)
    (stats : PipelineStats) (set : EncodedSet) (rows : List ℕ) : Prop :=
  ∀ order order' : List (ℕ × FileIo),
    (order.map Prod.fst).Perm rows → (order'.map Prod.fst).Perm rows →
    ∃ node node',
      Sg32.run libs build (Node.start file_store disk stats) (set.deliveries order) = .ok node ∧
      Sg32.run libs build (Node.start file_store disk stats) (set.deliveries order') = .ok node' ∧
      node.ring_buffer.get set.id.slot = node'.ring_buffer.get set.id.slot

/-- An order, with answers of the file system. -/
theorem map_fst_allWritten (order : List ℕ) :
    (order.map fun row => (row, allWritten)).map Prod.fst = order := by
  rw [List.map_map]
  exact List.map_id order

/-- Below the last slot the node is as free of the order as the collector. -/
theorem sameInEveryOrder_iff_orderFree (libs : Libs) (build : Build) (file_store : FlatFileStore)
    (disk : Disk) (stats : PipelineStats) (hlast : ¬ set.LastSlot) (h : set.RowsOf rows) :
    SameInEveryOrder libs build file_store disk stats set rows ↔ OrderFree libs set rows := by
  have hmax : set.id.slot.toNat + 1 < 2 ^ 64 := by
    have := set.id.slot.toNat_lt
    unfold LastSlot at hlast
    omega
  have hfollows : ∀ order : List (ℕ × FileIo), (order.map Prod.fst).Perm rows →
      ∃ node, Sg32.run libs build (Node.start file_store disk stats) (set.deliveries order) =
        .ok node ∧ node.ring_buffer.get set.id.slot =
          .ok ((set.collector libs).run (order.map Prod.fst)).2 := by
    intro order hperm
    refine run_follows set libs build file_store disk stats hmax fun d hd => ?_
    exact h d.1 (hperm.subset (List.mem_map_of_mem hd))
  constructor
  · intro hsame order order' hperm hperm'
    -- the file system does not matter
    rw [← map_fst_allWritten order] at hperm ⊢
    rw [← map_fst_allWritten order'] at hperm' ⊢
    obtain ⟨node, node', hrun, hrun', heq⟩ := hsame _ _ hperm hperm'
    obtain ⟨_, hrun₁, hget⟩ := hfollows _ hperm
    obtain ⟨_, hrun₂, hget'⟩ := hfollows _ hperm'
    cases hrun.symm.trans hrun₁
    cases hrun'.symm.trans hrun₂
    rw [hget, hget'] at heq
    exact Except.ok.inj heq
  · intro hfree order order' hperm hperm'
    obtain ⟨node, hrun, hget⟩ := hfollows order hperm
    obtain ⟨node', hrun', hget'⟩ := hfollows order' hperm'
    exact ⟨node, node', hrun, hrun', by rw [hget, hget', hfree _ _ hperm hperm']⟩

/-- At the last slot nothing is served, but a debug build panics when it
publishes. -/
theorem sameInEveryOrder_lastSlot_iff (libs : Libs) (build : Build) (file_store : FlatFileStore)
    (disk : Disk) (stats : PipelineStats) (hlast : set.LastSlot) (h : set.RowsOf rows) :
    SameInEveryOrder libs build file_store disk stats set rows ↔
      build = .release ∨ set.Uncut rows := by
  have hreturns : ∀ order : List (ℕ × FileIo), (order.map Prod.fst).Perm rows →
      (Returns (Sg32.run libs build (Node.start file_store disk stats) (set.deliveries order)) ↔
        build = .release ∨ ((set.collector libs).run (order.map Prod.fst)).2 = none) := by
    intro order hperm
    refine run_lastSlot set libs build file_store disk stats hlast fun d hd => ?_
    exact h d.1 (hperm.subset (List.mem_map_of_mem hd))
  rw [uncut_iff libs h]
  constructor
  · intro hsame
    rw [or_iff_not_imp_left]
    intro hdebug order hperm
    rw [← map_fst_allWritten order] at hperm ⊢
    obtain ⟨node, -, hrun, -⟩ := hsame _ _ hperm hperm
    exact ((hreturns _ hperm).mp ⟨node, hrun⟩).resolve_left hdebug
  · intro hnone order order' hperm hperm'
    obtain ⟨node, hrun⟩ := (hreturns order hperm).mpr (hnone.imp_right fun h => h _ hperm)
    obtain ⟨node', hrun'⟩ := (hreturns order' hperm').mpr (hnone.imp_right fun h => h _ hperm')
    exact ⟨node, node', hrun, hrun', by rw [get_lastSlot hlast, get_lastSlot hlast]⟩

/-! ### Sets with 32 data shreds -/

/-- The first `n` code shreds. -/
def codeRows (n : ℕ) : List ℕ := (List.range n).map (NUM_DATA_SHREDS + ·)

theorem length_codeRows (n : ℕ) : (codeRows n).length = n := by
  rw [codeRows, List.length_map, List.length_range]

theorem nodup_codeRows (n : ℕ) : (codeRows n).Nodup :=
  List.nodup_range.map (add_right_injective NUM_DATA_SHREDS)

theorem codeRows_subset {n : ℕ} (hn : n ≤ NUM_CODE_SHREDS)
    (hcode : ∀ i < NUM_CODE_SHREDS, NUM_DATA_SHREDS + i ∈ rows) : codeRows n ⊆ rows := by
  intro row hrow
  obtain ⟨i, hi, rfl⟩ := List.mem_map.mp hrow
  exact hcode i (lt_of_lt_of_le (List.mem_range.mp hi) hn)

section Usual

variable (husual : set.num_data = NUM_DATA_SHREDS)
include husual

theorem needed_usual (named : Bool) : set.needed named = NUM_DATA_SHREDS := by
  cases named with
  | true => exact husual
  | false => rfl

theorem place_usual (hrow : row < set.num_data + set.num_code) :
    set.place named row = some row := by
  have hcode := set.code_le_data
  rw [place_eq_some, needed_usual husual]
  by_cases hlt : row < set.num_data
  · exact .inl ⟨hlt, by omega, rfl⟩
  · refine .inr ⟨Nat.not_lt.mp hlt, ?_, by omega⟩
    cases named with
    | true =>
      show row - set.num_data < set.num_code
      omega
    | false =>
      show row - set.num_data < 32
      rw [husual] at hcode hrow ⊢
      have : NUM_DATA_SHREDS = 32 := rfl
      omega

theorem placesOf_usual (h : set.RowsOf rows) : set.placesOf named rows = rows.toFinset := by
  ext r
  rw [mem_placesOf, List.mem_toFinset]
  constructor
  · rintro ⟨row, hrow, hplace⟩
    rw [place_usual husual (h row hrow)] at hplace
    rwa [← Option.some.inj hplace]
  · intro hr
    exact ⟨r, hr, place_usual husual (h r hr)⟩

/-- Whatever came first, the data is recovered. -/
theorem recovered_eq_data {places : Finset ℕ} (hfilled : set.Filled named places)
    (hmany : NUM_DATA_SHREDS ≤ places.card) :
    set.recovered named places = some set.data_shreds := by
  cases named with
  | true => rw [recovered_named hfilled, husual, if_neg (Nat.not_lt.mpr hmany)]
  | false => rw [recovered_usual husual hfilled, if_neg (Nat.not_lt.mpr hmany)]

/-- A full batch has 32 different rows, and is cut like the data. -/
theorem of_full_usual {batch : List ℕ} (h : set.RowsOf batch) (hfull : set.Full batch) :
    batch.toFinset.card = NUM_DATA_SHREDS ∧ set.cut batch = blockIn set.data_shreds := by
  have hcard := hfull.card_eq
  rw [needed_usual husual] at hcard
  rw [cut, recovered_eq_data husual (filled_placesOf h) hcard.ge]
  rw [placesOf_usual husual h] at hcard
  exact ⟨hcard, rfl⟩

theorem full_usual {batch : List ℕ} (h : set.RowsOf batch) (hnodup : batch.Nodup)
    (hlen : batch.length = NUM_DATA_SHREDS) : set.Full batch := by
  refine full_of_nodup hnodup (fun row hrow => ?_) (by rw [hlen, needed_usual husual])
  rw [place_usual husual (h row hrow)]
  rfl

/-- The rows can publish the block with its parent and without: it has one,
and there is a data shred, and there are 32 code shreds. -/
structure TwoParents (set : EncodedSet) (rows : List ℕ) : Prop where
  block : ∃ result, deshredIntoTxs set.data_shreds = .ok (some result)
  parent : set.parentSlot ≠ 0
  data : ∃ row ∈ rows, row < set.num_data
  code : ∀ i < NUM_CODE_SHREDS, NUM_DATA_SHREDS + i ∈ rows

theorem not_data_of_mem_codeRows {n : ℕ} (h : row ∈ codeRows n) : ¬ row < set.num_data := by
  obtain ⟨i, -, rfl⟩ := List.mem_map.mp h
  omega

/-- 32 code shreds recover the block without its parent, 31 of them and a data
shred recover it with its parent. -/
theorem not_orderFree_of_twoParents (libs : Libs) (h : set.RowsOf rows)
    (htwo : set.TwoParents rows) : ¬ OrderFree libs set rows := by
  obtain ⟨⟨result, hresult⟩, hparent, ⟨d, hd, hlt⟩, hcode⟩ := htwo
  have hblock : blockIn set.data_shreds = some result := by
    rw [blockIn, hresult]
    rfl
  have hnot : ∀ n, ∀ row ∈ codeRows n, ¬ row < set.num_data := fun n row =>
    not_data_of_mem_codeRows husual
  have hcut : ∀ batch, batch ⊆ rows → batch.Nodup → batch.length = NUM_DATA_SHREDS →
      set.Full batch ∧ set.cut batch = some result := by
    intro batch hsub hnodup hlen
    have hrows : set.RowsOf batch := fun row hrow => h row (hsub hrow)
    have hfull := full_usual husual hrows hnodup hlen
    exact ⟨hfull, (of_full_usual husual hrows hfull).2.trans hblock⟩
  -- code shreds only
  have hcodes : codeRows NUM_CODE_SHREDS ⊆ rows := codeRows_subset le_rfl hcode
  have hzero : set.parentOf (codeRows NUM_CODE_SHREDS) = 0 := by
    refine if_neg ?_
    rintro ⟨row, hrow, hlt'⟩
    exact hnot _ row hrow hlt'
  obtain ⟨hfull, hresult⟩ := hcut _ hcodes (nodup_codeRows _) (length_codeRows _)
  obtain ⟨order, hperm, hrun⟩ := exists_perm_run_of_full libs h
    (List.subperm_of_subset (nodup_codeRows _) hcodes) hfull hresult
  -- a data shred and code shreds
  have hsub : d :: codeRows 31 ⊆ rows :=
    List.cons_subset.mpr ⟨hd, codeRows_subset (by decide) hcode⟩
  have hnodup : (d :: codeRows 31).Nodup :=
    List.nodup_cons.mpr ⟨fun hmem => hnot _ d hmem hlt, nodup_codeRows 31⟩
  have hnamed : set.parentOf (d :: codeRows 31) = set.parentSlot :=
    if_pos ⟨d, List.mem_cons_self, hlt⟩
  obtain ⟨hfull', hresult'⟩ := hcut _ hsub hnodup rfl
  obtain ⟨order', hperm', hrun'⟩ := exists_perm_run_of_full libs h
    (List.subperm_of_subset hnodup hsub) hfull' hresult'
  intro hfree
  have heq := hfree order order' hperm hperm'
  rw [hrun, hrun', hzero, hnamed, Option.some.injEq] at heq
  exact hparent (congrArg SlotData.parent_slot heq).symm

/-- 32 different rows without a data shred are all the code shreds. -/
theorem mem_of_no_data (h : set.RowsOf rows) (hno : ¬ ∃ row ∈ rows, row < set.num_data)
    (hcard : rows.toFinset.card = NUM_DATA_SHREDS) :
    ∀ i < NUM_CODE_SHREDS, NUM_DATA_SHREDS + i ∈ rows := by
  have hrange : rows.toFinset ⊆
      Finset.Ico NUM_DATA_SHREDS (NUM_DATA_SHREDS + NUM_CODE_SHREDS) := by
    intro row hrow
    have hmem := List.mem_toFinset.mp hrow
    have hlt := h row hmem
    have hle : ¬ row < set.num_data := fun hlt' => hno ⟨row, hmem, hlt'⟩
    have hcode := set.code_le_data
    have : NUM_DATA_SHREDS = NUM_CODE_SHREDS := rfl
    exact Finset.mem_Ico.mpr ⟨by omega, by omega⟩
  have heq := Finset.eq_of_subset_of_card_le hrange (by rw [hcard, Nat.card_Ico]; decide)
  intro i hi
  rw [← List.mem_toFinset, heq]
  exact Finset.mem_Ico.mpr ⟨by omega, by omega⟩

/-- Without two parents all batches of the rows have the same one. -/
theorem exists_parentOf (h : set.RowsOf rows)
    (hblock : ∃ result, deshredIntoTxs set.data_shreds = .ok (some result))
    (hnot : ¬ set.TwoParents rows) :
    ∃ parent_slot, ∀ batch, batch ⊆ rows → batch.toFinset.card = NUM_DATA_SHREDS →
      set.parentOf batch = parent_slot := by
  by_cases hparent : set.parentSlot = 0
  · refine ⟨0, fun batch _ _ => ?_⟩
    rw [parentOf, hparent, ite_self]
  by_cases hdata : ∃ row ∈ rows, row < set.num_data
  · refine ⟨set.parentSlot, fun batch hsub hcard => if_pos ?_⟩
    by_contra hno
    refine hnot ⟨hblock, hparent, hdata, fun i hi => hsub ?_⟩
    exact mem_of_no_data husual (fun row hrow => h row (hsub hrow)) hno hcard i hi
  · refine ⟨0, fun batch hsub _ => if_neg ?_⟩
    rintro ⟨row, hrow, hlt⟩
    exact hdata ⟨row, hsub hrow, hlt⟩

/-- **Sets with 32 data shreds**: the order matters when the rows can publish
the block with its parent and without. -/
theorem orderFree_usual_iff (libs : Libs) (h : set.RowsOf rows) :
    OrderFree libs set rows ↔ ¬ set.TwoParents rows := by
  constructor
  · intro hfree htwo
    exact not_orderFree_of_twoParents husual libs h htwo hfree
  intro hnot
  have hcut : ∀ batch, batch.Subperm rows → set.Full batch →
      batch.toFinset.card = NUM_DATA_SHREDS ∧ set.cut batch = blockIn set.data_shreds :=
    fun batch hsub hfull => of_full_usual husual (h.of_subperm hsub) hfull
  rw [orderFree_iff libs h]
  -- whether there is a block, and 32 rows to recover it; only the parent can differ
  by_cases hblock : ∃ result, deshredIntoTxs set.data_shreds = .ok (some result)
  · by_cases hfew : rows.toFinset.card < NUM_DATA_SHREDS
    · refine .inl fun batch hsub hfull => absurd (hcut batch hsub hfull).1 ?_
      have hle : batch.toFinset.card ≤ rows.toFinset.card := Finset.card_le_card fun row hrow =>
        List.mem_toFinset.mpr (hsub.subset (List.mem_toFinset.mp hrow))
      omega
    obtain ⟨parent_slot, hone⟩ := exists_parentOf husual h hblock hnot
    obtain ⟨result, hresult⟩ := hblock
    have hdata : blockIn set.data_shreds = some result := by
      rw [blockIn, hresult]
      rfl
    refine .inr ⟨⟨set.publishedBlock libs parent_slot result, ?_⟩, ?_⟩
    · intro batch hsub hfull result' hresult'
      obtain ⟨hcard, heq⟩ := hcut batch hsub hfull
      cases hresult'.symm.trans (heq.trans hdata)
      rw [hone batch hsub.subset hcard]
    · refine not_usedUp (fun order hperm hwaits => ?_) fun batch hsub hfull hnone => ?_
      · rw [Waits, placesOf_usual husual (h.of_subperm hperm.subperm), needed_usual husual,
          List.toFinset_eq_of_perm _ _ hperm] at hwaits
        exact hfew hwaits
      · cases hnone.symm.trans ((hcut batch hsub hfull).2.trans hdata)
  · refine .inl fun batch hsub hfull => ?_
    obtain ⟨result, hresult⟩ := deshredIntoTxs_returns set.data_shreds
    rw [(hcut batch hsub hfull).2, blockIn, hresult]
    cases result with
    | none => rfl
    | some result => exact absurd ⟨result, hresult⟩ hblock

end Usual

/-! ### All sets -/

/-- **When the order of arrival does not matter**, for any collection of rows.
The last slot cannot be published in a debug build, and is never served in a
release build.  With 32 data shreds, the rows must not allow the block to be
published with and without its parent.  With another number, they are of one
kind, or can publish nothing, or publish one block whatever comes first; with
33 of which some come again, all batches that they can be split into must be
looked at. -/
theorem arrivalOrder_iff (libs : Libs) (build : Build) (file_store : FlatFileStore) (disk : Disk)
    (stats : PipelineStats) (h : set.RowsOf rows) :
    (set.LastSlot → (SameInEveryOrder libs build file_store disk stats set rows ↔
      build = .release ∨ set.Unpublishable rows)) ∧
    (¬ set.LastSlot →
      (set.num_data = NUM_DATA_SHREDS →
        (SameInEveryOrder libs build file_store disk stats set rows ↔ ¬ set.TwoParents rows)) ∧
      (set.num_data ≠ NUM_DATA_SHREDS → set.num_data ≠ 33 ∨ rows.Nodup →
        (SameInEveryOrder libs build file_store disk stats set rows ↔
          (∀ row ∈ rows, row < set.num_data) ∨ (∀ row ∈ rows, set.num_data ≤ row) ∨
            set.Unpublishable rows ∨ ∃ block, set.Agree libs rows block)) ∧
      (set.num_data = 33 →
        (SameInEveryOrder libs build file_store disk stats set rows ↔
          set.Unpublishable rows ∨ set.OneBlock libs rows))) := by
  constructor
  · intro hlast
    rw [← uncut_iff_unpublishable h]
    exact sameInEveryOrder_lastSlot_iff libs build file_store disk stats hlast h
  · intro hlast
    rw [sameInEveryOrder_iff_orderFree libs build file_store disk stats hlast h]
    refine ⟨fun husual => orderFree_usual_iff husual libs h,
      fun hother hrep => orderFree_other_iff libs h hother hrep, fun _ => ?_⟩
    rw [← uncut_iff_unpublishable h]
    exact orderFree_iff libs h

/-! ### Sample sets -/

/-- The sample set with 32 data shreds. -/
def smallEncoded (slot : UInt64) : EncodedSet where
  id := { slot := slot, fec_set_index := 0 }
  num_data := NUM_DATA_SHREDS
  num_code := NUM_CODE_SHREDS
  parent_offset := 1
  data_shreds := smallData
  code_shreds := smallCode
  shred := smallShred slot
  one_le_code := by decide
  code_le_data := le_rfl
  data_le := by decide
  length_data := (smallSet slot).length_data
  length_eq := (smallSet slot).length_eq
  encoded := (smallSet slot).encoded
  isRow row hrow := isRow_smallShred slot hrow
  hasId row _ := by
    unfold smallShred
    split_ifs <;> rfl
  names row _ := by
    unfold smallShred
    split_ifs
    · rfl
    · exact ⟨rfl, rfl⟩

/-- The code payload of a set with one data and one code shred. -/
def pairCode (payload : Bytes) : Bytes :=
  (parity [payload] (generateCauchyMatrix 1 1) 1 payload.length).getD 0 []

/-- The two shreds of slot 7 with this payload. -/
def pairShred (payload : Bytes) (row : ℕ) : Shred :=
  let common_header : ShredCommonHeader :=
    { signature := Vector.replicate 64 0
      shred_variant := 0
      slot := 7
      index := 0
      version := 1
      fec_set_index := 0 }
  if row = 0 then
    .merkleData common_header
      { parent_offset := 1, flags := 0, size := .ofNat (88 + payload.length) }
      (Vector.replicate 32 0) [] payload
  else
    .merkleCode common_header { num_data_shreds := 1, num_coding_shreds := 1, position := 0 }
      (Vector.replicate 32 0) [] (pairCode payload)

/-- A set with one data and one code shred. -/
def pairSet (payload : Bytes) : EncodedSet where
  id := { slot := 7, fec_set_index := 0 }
  num_data := 1
  num_code := 1
  parent_offset := 1
  data_shreds := [payload]
  code_shreds := [pairCode payload]
  shred := pairShred payload
  one_le_code := le_rfl
  code_le_data := le_rfl
  data_le := by decide
  length_data := rfl
  length_eq := ⟨payload.length, by simp⟩
  encoded := encode_eq_parity 1 le_rfl (by simp)
  isRow row hrow := by
    have hcases : row = 0 ∨ row = 1 := by omega
    rcases hcases with rfl | rfl
    · exact ⟨rfl, rfl⟩
    · exact ⟨rfl, rfl⟩
  hasId row _ := by
    unfold pairShred
    split_ifs <;> rfl
  names row _ := by
    unfold pairShred
    split_ifs
    · rfl
    · exact ⟨rfl, rfl⟩

/-- 32 data shreds without a code shred, and a code shred of a set of two. -/
theorem arrivalOrder_sample :
    (¬ (smallEncoded 7).TwoParents (List.range 32) ∧
      SameInEveryOrder sampleLibs .debug .empty ∅ {} (smallEncoded 7) (List.range 32)) ∧
    (pairSet (smallStream [smallTx 4])).num_data ≠ NUM_DATA_SHREDS ∧
      SameInEveryOrder sampleLibs .debug .empty ∅ {} (pairSet (smallStream [smallTx 4])) [1] := by
  have hdata : (smallEncoded 7).RowsOf (List.range 32) := by
    intro row hrow
    have hlt := List.mem_range.mp hrow
    show row < 32 + 32
    omega
  have hnot : ¬ (smallEncoded 7).TwoParents (List.range 32) := fun htwo =>
    absurd (List.mem_range.mp (htwo.code 0 (by decide))) (lt_irrefl _)
  have hcode : (pairSet (smallStream [smallTx 4])).RowsOf [1] := by
    intro row hrow
    rw [List.mem_singleton.mp hrow]
    show 1 < 1 + 1
    omega
  have hother : (pairSet (smallStream [smallTx 4])).num_data ≠ NUM_DATA_SHREDS :=
    (by decide : (1 : ℕ) ≠ 32)
  have h33 : (pairSet (smallStream [smallTx 4])).num_data ≠ 33 := (by decide : (1 : ℕ) ≠ 33)
  have hslot : ¬ (7 : UInt64).toNat + 1 = 2 ^ 64 := by decide
  refine ⟨⟨hnot, ?_⟩, hother, ?_⟩
  · exact (((arrivalOrder_iff sampleLibs .debug .empty ∅ {} hdata).2 hslot).1 rfl).mpr hnot
  · refine (((arrivalOrder_iff sampleLibs .debug .empty ∅ {} hcode).2 hslot).2.1 hother
      (.inl h33)).mpr (.inr (.inl fun row hrow => ?_))
    rw [List.mem_singleton.mp hrow]
    exact le_rfl

/-- Whether the block of the sample pair is served after these rows. -/
def pairServed (rows : List ℕ) : Checked Bool := do
  let set := pairSet (smallStream [smallTx 4])
  let node ← Sg32.run sampleLibs .debug (Node.start .empty ∅ {})
    (set.deliveries (rows.map fun row => (row, allWritten)))
  let data ← node.ring_buffer.get 7
  pure data.isSome

/-- One data and one code shred: with the data shred first the batch waits for
32 shreds. -/
theorem arrivalOrder_pair :
    ¬ ∀ (libs : Libs) (build : Build) (file_store : FlatFileStore) (disk : Disk)
        (stats : PipelineStats) (set : EncodedSet) (rows : List ℕ), set.RowsOf rows →
      SameInEveryOrder libs build file_store disk stats set rows := by
  intro hclaim
  have hrows : (pairSet (smallStream [smallTx 4])).RowsOf [0, 1] := by
    intro row hrow
    show row < 1 + 1
    simp only [List.mem_cons, List.not_mem_nil, or_false] at hrow
    omega
  obtain ⟨node, node', hrun, hrun', hsame⟩ := hclaim sampleLibs .debug .empty ∅ {} _ [0, 1] hrows
    ([0, 1].map fun row => (row, allWritten)) ([1, 0].map fun row => (row, allWritten))
    (List.Perm.refl _) (List.Perm.swap 0 1 [])
  -- the data shred first opens a batch of 32, the code shred first one of one
  have hdataFirst : pairServed [0, 1] = .ok false := by decide +kernel
  have hcodeFirst : pairServed [1, 0] = .ok true := by decide +kernel
  have hslot : (pairSet (smallStream [smallTx 4])).id.slot = 7 := rfl
  rw [pairServed, hrun, ok_bind, ← hslot, hsame] at hdataFirst
  rw [pairServed, hrun', ok_bind, ← hslot] at hcodeFirst
  cases hdataFirst.symm.trans hcodeFirst

end EncodedSet

end Sg32
