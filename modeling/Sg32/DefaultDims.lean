/-
Sets whose data shreds open batches of the wrong dimensions.

After a code shred the batch of a set has its own dimensions, and recovers its
data.  After a data shred it has the default ones, 32 and 32, and recovers
something else when the set has another number of data shreds.

* `cut_named`, `cut_usual` — what the two kinds of batches are cut into;
* `exists_full_named`, `exists_full_usual` — what rows fill them;
* `uncut_iff_unpublishable` — when the rows cannot publish anything.
-/
import Sg32.SetBatches

namespace Sg32

open Rust FecBatch SlotRingBuffer Collector

namespace EncodedSet

variable (set : EncodedSet)

/-- 32 places that the rows fill in a batch of the default dimensions.  A data
shred opens it: one of them, or one that has no place. -/
structure Usual (rows : List ℕ) (places : Finset ℕ) : Prop where
  filled : places ⊆ set.placesOf false rows
  card : places.card = NUM_DATA_SHREDS
  opened : ∃ row ∈ rows, row < set.num_data ∧ (row ∈ places ∨ NUM_DATA_SHREDS ≤ row)

/-- What a batch of the default dimensions is cut into. -/
def cutUsual (places : Finset ℕ) : Option DeshredResult :=
  (set.recovered false places).bind blockIn

/-- Nothing that the rows can recover can be cut up: neither the data, when
there are enough of them and a code shred, nor what a batch of the default
dimensions recovers. -/
structure Unpublishable (rows : List ℕ) : Prop where
  data : (∃ row ∈ rows, set.num_data ≤ row) → set.num_data ≤ rows.toFinset.card →
    deshredIntoTxs set.data_shreds = .ok none
  usual : ∀ places, set.Usual rows places → set.cutUsual places = none

/-- The places are those of the first 32 code shreds, and what the other rows
then fill has a block: the first 32 data shreds are there, and no code shred is
left to come before them, or it is enough for 33. -/
structure LeavesData (rows : List ℕ) (places : Finset ℕ) : Prop where
  places : places = Finset.Ico NUM_DATA_SHREDS (NUM_DATA_SHREDS + NUM_CODE_SHREDS)
  data : ∀ row < NUM_DATA_SHREDS, row ∈ rows
  code : set.num_data = 33 ∨ rows.countP (set.num_data ≤ ·) = NUM_CODE_SHREDS

/-- Whatever comes first, the rows publish this block: both kinds of batches
are filled, the data has the block, also when only code shreds recover it, and
so has what a batch of the default dimensions recovers, unless that leaves the
data to others. -/
structure Agree (libs : Libs) (rows : List ℕ) (block : SlotData) : Prop where
  codeFirst : set.num_data ≤ rows.toFinset.card
  dataFirst : NUM_DATA_SHREDS ≤ (set.placesOf false rows).card
  data : ∃ result, deshredIntoTxs set.data_shreds = .ok (some result) ∧
    set.publishedBlock libs set.parentSlot result = block
  parent : (∀ i < set.num_data, set.num_data + i ∈ rows) → set.parentSlot = 0
  usual : ∀ places, set.Usual rows places →
    (set.cutUsual places).map (set.publishedBlock libs set.parentSlot) = some block ∨
      set.cutUsual places = none ∧ set.LeavesData rows places

variable {set} {libs : Libs} {named : Bool} {rows rows' batch : List ℕ} {row : ℕ}

theorem blockIn_eq_none_iff {payloads : List Bytes} :
    blockIn payloads = none ↔ deshredIntoTxs payloads = .ok none := by
  obtain ⟨result, hresult⟩ := deshredIntoTxs_returns payloads
  rw [blockIn, hresult]
  cases result with
  | none => exact ⟨fun _ => rfl, fun _ => rfl⟩
  | some result =>
    constructor
    · intro h
      cases h
    · intro h
      cases h

theorem blockIn_eq_some_iff {payloads : List Bytes} {result : DeshredResult} :
    blockIn payloads = some result ↔ deshredIntoTxs payloads = .ok (some result) := by
  obtain ⟨result', hresult⟩ := deshredIntoTxs_returns payloads
  rw [blockIn, hresult, Except.ok.injEq]
  rfl

theorem card_placesOf_le_toFinset (set : EncodedSet) (named : Bool) (rows : List ℕ) :
    (set.placesOf named rows).card ≤ rows.toFinset.card := by
  have hsub : set.placesOf named rows ⊆ set.placesOf named rows.dedup :=
    placesOf_mono fun row hrow => List.mem_dedup.mpr hrow
  exact le_trans (Finset.card_le_card hsub) (card_placesOf_le set named rows.dedup)

/-! ### The two kinds of batches -/

theorem place_named (hrow : row < set.num_data + set.num_code) :
    set.place true row = some row := by
  rw [place_eq_some]
  show _ ∧ row < set.num_data ∧ _ ∨ _ ∧ row - set.num_data < set.num_code ∧
    row = set.num_data + (row - set.num_data)
  omega

theorem placesOf_named (h : set.RowsOf rows) : set.placesOf true rows = rows.toFinset := by
  ext r
  rw [mem_placesOf, List.mem_toFinset]
  constructor
  · rintro ⟨row, hrow, hplace⟩
    rw [place_named (h row hrow)] at hplace
    rwa [← Option.some.inj hplace]
  · exact fun hr => ⟨r, hr, place_named (h r hr)⟩

/-- After a code shred a batch needs as many rows as there are data shreds. -/
theorem waits_named_iff (h : set.RowsOf rows) (hnamed : set.namedBy rows = true) :
    set.Waits rows ↔ rows.toFinset.card < set.num_data := by
  rw [Waits, hnamed, placesOf_named h]
  rfl

theorem waits_usual_iff (hnamed : set.namedBy rows = false) :
    set.Waits rows ↔ (set.placesOf false rows).card < NUM_DATA_SHREDS := by
  rw [Waits, hnamed]
  rfl

theorem exists_code_of_named (hnamed : set.namedBy rows = true) :
    ∃ row ∈ rows, set.num_data ≤ row := by
  cases rows with
  | nil => cases hnamed
  | cons row rows => exact ⟨row, List.mem_cons_self, of_decide_eq_true hnamed⟩

theorem exists_data_of_usual (hne : rows ≠ []) (hnamed : set.namedBy rows = false) :
    ∃ row ∈ rows, row < set.num_data := by
  cases rows with
  | nil => exact absurd rfl hne
  | cons row rows =>
    exact ⟨row, List.mem_cons_self, Nat.not_le.mp (of_decide_eq_false hnamed)⟩

/-- A batch that a code shred opened recovers the data. -/
theorem cut_named (h : set.RowsOf batch) (hfull : set.Full batch)
    (hnamed : set.namedBy batch = true) : set.cut batch = blockIn set.data_shreds := by
  have hcard := hfull.card_eq
  rw [hnamed] at hcard
  have hmany : ¬ (set.placesOf true batch).card < set.num_data := Nat.not_lt.mpr hcard.ge
  rw [cut, hnamed, recovered_named (filled_placesOf h), if_neg hmany, Option.bind_some]

theorem cut_usual (hnamed : set.namedBy batch = false) :
    set.cut batch = set.cutUsual (set.placesOf false batch) := by
  rw [cut, hnamed]
  rfl

/-- A batch that a data shred opened fills 32 places, and has the parent. -/
theorem usual_of_full (hsub : batch ⊆ rows) (hfull : set.Full batch)
    (hnamed : set.namedBy batch = false) :
    set.Usual rows (set.placesOf false batch) ∧ set.parentOf batch = set.parentSlot := by
  have hcard := hfull.card_eq
  rw [hnamed] at hcard
  obtain ⟨row, hrow, hdata⟩ := exists_data_of_usual hfull.ne_nil hnamed
  refine ⟨⟨placesOf_mono hsub, hcard, row, hsub hrow, hdata, ?_⟩, if_pos ⟨row, hrow, hdata⟩⟩
  by_cases hlt : row < NUM_DATA_SHREDS
  · exact .inl (mem_placesOf.mpr ⟨row, hrow, place_eq_some.mpr (.inl ⟨hdata, hlt, rfl⟩)⟩)
  · exact .inr (Nat.not_lt.mp hlt)

/-- As many rows as there are data shreds, a code shred first. -/
theorem full_named {code : ℕ} {others : List ℕ} (h : set.RowsOf (code :: others))
    (hcode : set.num_data ≤ code) (hnodup : (code :: others).Nodup)
    (hlen : (code :: others).length = set.num_data) :
    set.Full (code :: others) ∧ set.namedBy (code :: others) = true := by
  have hnamed : set.namedBy (code :: others) = true := decide_eq_true hcode
  refine ⟨full_of_nodup hnodup (fun row hrow => ?_) (by rw [hlen, hnamed]; rfl), hnamed⟩
  rw [hnamed, place_named (h row hrow)]
  rfl

/-- Enough rows and a code shred fill a batch that recovers the data, with any
other row in it. -/
theorem exists_full_named (h : set.RowsOf rows) {code : ℕ} (hmem : code ∈ rows)
    (hcode : set.num_data ≤ code) (hmany : set.num_data ≤ rows.toFinset.card) (hrow : row ∈ rows)
    (hroom : ({code, row} : Finset ℕ).card ≤ set.num_data) :
    ∃ batch, batch.Subperm rows ∧ set.Full batch ∧ set.namedBy batch = true ∧ row ∈ batch := by
  -- the two rows, and others up to the number needed
  have hpair : ({code, row} : Finset ℕ) ⊆ rows.toFinset := by
    intro r hr
    rcases Finset.mem_insert.mp hr with rfl | hr
    · exact List.mem_toFinset.mpr hmem
    · rw [Finset.mem_singleton.mp hr]
      exact List.mem_toFinset.mpr hrow
  obtain ⟨chosen, hin, hchosen, hcard⟩ := Finset.exists_subsuperset_card_eq hpair hroom hmany
  have hcodeIn : code ∈ chosen := hin (Finset.mem_insert_self code {row})
  have hperm : (code :: (chosen.erase code).toList).Perm chosen.toList := by
    refine (List.perm_ext_iff_of_nodup ?_ chosen.nodup_toList).mpr fun r => ?_
    · exact List.nodup_cons.mpr ⟨by simp, Finset.nodup_toList _⟩
    · by_cases hr : r = code
      · simp [hr, hcodeIn]
      · simp [hr]
  have hsub : code :: (chosen.erase code).toList ⊆ rows := fun r hr =>
    List.mem_toFinset.mp (hchosen (Finset.mem_toList.mp (hperm.subset hr)))
  have hnodup := hperm.nodup_iff.mpr chosen.nodup_toList
  obtain ⟨hfull, hnamed⟩ := full_named (fun r hr => h r (hsub hr)) hcode hnodup
    (by rw [hperm.length_eq, Finset.length_toList, hcard])
  refine ⟨_, List.subperm_of_subset hnodup hsub, hfull, hnamed, ?_⟩
  exact hperm.symm.subset (Finset.mem_toList.mpr (hin (by simp)))

/-- The row joins a batch with these places: it has one of them, or none. -/
def Absorbed (set : EncodedSet) (places : Finset ℕ) (row : ℕ) : Prop :=
  ∀ r ∈ set.place false row, r ∈ places

instance (places : Finset ℕ) : DecidablePred (set.Absorbed places) :=
  fun row => inferInstanceAs (Decidable (∀ r ∈ set.place false row, r ∈ places))

theorem placesOf_perm (h : rows.Perm rows') :
    set.placesOf named rows = set.placesOf named rows' :=
  Finset.Subset.antisymm (placesOf_mono h.subset) (placesOf_mono h.symm.subset)

/-- Rows in groups: those that are taken, the last of them once and at the end,
the others, and the last again. -/
theorem perm_of_take (take : ℕ → Prop) [DecidablePred take] {last : ℕ} (hlast : last ∈ rows)
    (htake : take last) :
    ((rows.filter fun row => take row ∧ row ≠ last) ++ [last] ++
      ((rows.filter fun row => ¬ take row) ++ List.replicate (rows.count last - 1) last)).Perm
      rows := by
  rw [List.perm_iff_count]
  intro row
  have hpos := List.count_pos_iff.mpr hlast
  have hfilter : ∀ (p : ℕ → Prop) [DecidablePred p],
      (rows.filter fun row => p row).count row = if p row then rows.count row else 0 := by
    intro p _
    split_ifs with hp
    · exact List.count_filter (decide_eq_true hp)
    · exact List.count_eq_zero.mpr fun hmem => hp (of_decide_eq_true (List.mem_filter.mp hmem).2)
  simp only [List.count_append, hfilter, List.count_replicate, List.count_singleton, beq_iff_eq]
  by_cases hrow : row = last
  · subst hrow
    simp only [htake, ne_eq, not_true_eq_false, and_false, if_false, if_true]
    omega
  · have hrow' : ¬ last = row := fun h => hrow h.symm
    by_cases htaken : take row <;> simp [hrow, hrow', htaken]

/-- **A batch of the default dimensions** takes some rows, opens with a data
shred, and is full with the last of them; the rest stays. -/
theorem exists_full_usual {places : Finset ℕ} (hcard : places.card = NUM_DATA_SHREDS)
    (take : ℕ → Prop) [DecidablePred take] (htake : ∀ row, take row → set.Absorbed places row)
    (hall : ∀ r ∈ places, ∃ row ∈ rows, take row ∧ set.place false row = some r) {first last r : ℕ}
    (hfirst : first ∈ rows) (hdata : first < set.num_data) (htaken : take first)
    (hlast : last ∈ rows) (htaken' : take last) (hplace : set.place false last = some r)
    (hne : first ≠ last) :
    ∃ batch, (batch ++ ((rows.filter fun row => ¬ take row) ++
        List.replicate (rows.count last - 1) last)).Perm rows ∧
      set.Full batch ∧ set.namedBy batch = false ∧ set.placesOf false batch = places := by
  set inner := rows.filter fun row => take row ∧ row ≠ last with hinner
  have hmem : ∀ row, row ∈ inner ↔ row ∈ rows ∧ take row ∧ row ≠ last := by
    intro row
    rw [hinner, List.mem_filter, decide_eq_true_iff]
  have hopened : (first :: inner.erase first).Perm inner :=
    (List.perm_cons_erase ((hmem first).mpr ⟨hfirst, htaken, hne⟩)).symm
  have hnamed : set.namedBy (first :: inner.erase first ++ [last]) = false :=
    decide_eq_false (Nat.not_le.mpr hdata)
  have hr : r ∈ places := htake last htaken' r hplace
  -- all but the last row leave its place free
  have hbefore : set.placesOf false (first :: inner.erase first) ⊆ places.erase r := by
    rw [placesOf_perm hopened]
    intro r' hr'
    obtain ⟨row, hrow, hplace'⟩ := mem_placesOf.mp hr'
    obtain ⟨-, htakenRow, hother⟩ := (hmem row).mp hrow
    refine Finset.mem_erase.mpr ⟨?_, htake row htakenRow r' hplace'⟩
    rintro rfl
    exact hother (place_inj hplace' hplace)
  have hplaces : set.placesOf false (first :: inner.erase first ++ [last]) = places := by
    refine Finset.Subset.antisymm ?_ ?_
    · rw [placesOf_append_singleton, hplace]
      exact Finset.insert_subset hr (hbefore.trans (Finset.erase_subset r places))
    · intro r' hr'
      obtain ⟨row, hrow, htakenRow, hplace'⟩ := hall r' hr'
      refine mem_placesOf.mpr ⟨row, ?_, hplace'⟩
      by_cases hrowLast : row = last
      · simp [hrowLast]
      · have hinner := (hmem row).mpr ⟨hrow, htakenRow, hrowLast⟩
        exact List.mem_append_left _ (hopened.symm.subset hinner)
  refine ⟨first :: inner.erase first ++ [last], ?_, ⟨?_, ?_⟩, hnamed, hplaces⟩
  · exact ((hopened.append_right _).append_right _).trans (perm_of_take take hlast htaken')
  · rw [List.dropLast_concat, hnamed]
    have hle := Finset.card_le_card hbefore
    rw [Finset.card_erase_of_mem hr, hcard] at hle
    exact lt_of_le_of_lt hle (Nat.sub_lt (by decide) (by decide) : NUM_DATA_SHREDS - 1 < 32)
  · rw [waits_usual_iff hnamed, hplaces, hcard]
    exact lt_irrefl _

theorem place_data (hdata : row < set.num_data) {r : ℕ} (hplace : set.place false row = some r) :
    r = row ∧ row < NUM_DATA_SHREDS := by
  rcases place_eq_some.mp hplace with ⟨-, hlt, rfl⟩ | ⟨hle, -⟩
  · exact ⟨rfl, hlt⟩
  · omega

/-- The shred that opens a batch joins it. -/
theorem absorbed_of_opened {places : Finset ℕ} (hdata : row < set.num_data)
    (hopened : row ∈ places ∨ NUM_DATA_SHREDS ≤ row) : set.Absorbed places row := by
  intro r hr
  obtain ⟨rfl, hlt⟩ := place_data hdata hr
  exact hopened.resolve_right (Nat.not_le.mpr hlt)

/-- The rows that have one of the places join the batch. -/
theorem Usual.exists_absorbed {places : Finset ℕ} (h : set.Usual rows places) {r : ℕ}
    (hr : r ∈ places) : ∃ row ∈ rows, set.Absorbed places row ∧ set.place false row = some r := by
  obtain ⟨row, hrow, hplace⟩ := mem_placesOf.mp (h.filled hr)
  refine ⟨row, hrow, fun r' hr' => ?_, hplace⟩
  cases hplace.symm.trans hr'
  exact hr

/-- The places are filled by a batch of the rows. -/
theorem Usual.exists_full {places : Finset ℕ} (h : set.Usual rows places) :
    ∃ batch, batch.Subperm rows ∧ set.Full batch ∧ set.namedBy batch = false ∧
      set.placesOf false batch = places := by
  obtain ⟨first, hfirst, hdata, hopened⟩ := h.opened
  -- some other place comes last
  obtain ⟨r, hr, hne⟩ := Finset.exists_mem_ne (by rw [h.card]; decide : 1 < places.card) first
  obtain ⟨last, hlast, htaken, hplace⟩ := h.exists_absorbed hr
  have hother : first ≠ last := by
    rintro rfl
    exact hne (place_data hdata hplace).1
  obtain ⟨batch, hperm, hbatch⟩ := exists_full_usual h.card (set.Absorbed places)
    (fun row hrow => hrow) (fun r' hr' => h.exists_absorbed hr') hfirst hdata
    (absorbed_of_opened hdata hopened) hlast htaken hplace hother
  exact ⟨batch, (List.sublist_append_left batch _).subperm.trans hperm.subperm, hbatch⟩

/-- **When the rows cannot publish anything.** -/
theorem uncut_iff_unpublishable (h : set.RowsOf rows) :
    set.Uncut rows ↔ set.Unpublishable rows := by
  constructor
  · intro huncut
    constructor
    · rintro ⟨code, hmem, hcode⟩ hmany
      have hroom : ({code, code} : Finset ℕ).card ≤ set.num_data := by
        rw [Finset.pair_eq_singleton, Finset.card_singleton]
        exact le_trans set.one_le_code set.code_le_data
      obtain ⟨batch, hsub, hfull, hnamed, -⟩ :=
        exists_full_named h hmem hcode hmany hmem hroom
      rw [← blockIn_eq_none_iff, ← cut_named (h.of_subperm hsub) hfull hnamed]
      exact huncut batch hsub hfull
    · intro places husual
      obtain ⟨batch, hsub, hfull, hnamed, rfl⟩ := husual.exists_full
      rw [← cut_usual hnamed]
      exact huncut batch hsub hfull
  · intro hnone batch hsub hfull
    have hbatch := h.of_subperm hsub
    cases hnamed : set.namedBy batch with
    | true =>
      obtain ⟨code, hmem, hcode⟩ := exists_code_of_named hnamed
      rw [cut_named hbatch hfull hnamed, blockIn_eq_none_iff]
      refine hnone.data ⟨code, hsub.subset hmem, hcode⟩ ?_
      have hmany := hfull.now
      rw [waits_named_iff hbatch hnamed, Nat.not_lt] at hmany
      refine le_trans hmany (Finset.card_le_card fun row hrow => ?_)
      exact List.mem_toFinset.mpr (hsub.subset (List.mem_toFinset.mp hrow))
    | false =>
      rw [cut_usual hnamed]
      exact hnone.usual _ (usual_of_full hsub.subset hfull hnamed).1

/-! ### Rows that wait -/

theorem exists_waits_of_code (h : set.RowsOf rows) {code : ℕ} (hmem : code ∈ rows)
    (hcode : set.num_data ≤ code) (hfew : rows.toFinset.card < set.num_data) :
    ∃ order, order.Perm rows ∧ set.Waits order := by
  have hperm := (List.perm_cons_erase hmem).symm
  refine ⟨_, hperm, (waits_named_iff (h.of_subperm hperm.subperm) (decide_eq_true hcode)).mpr ?_⟩
  rwa [List.toFinset_eq_of_perm _ _ hperm]

theorem exists_waits_of_data {data : ℕ} (hmem : data ∈ rows) (hdata : data < set.num_data)
    (hfew : (set.placesOf false rows).card < NUM_DATA_SHREDS) :
    ∃ order, order.Perm rows ∧ set.Waits order := by
  have hperm := (List.perm_cons_erase hmem).symm
  have hnamed : set.namedBy (data :: rows.erase data) = false :=
    decide_eq_false (Nat.not_le.mpr hdata)
  refine ⟨_, hperm, (waits_usual_iff hnamed).mpr ?_⟩
  rwa [placesOf_perm hperm]

/-- A code shred first, if there is one. -/
theorem exists_waits_codeFirst (h : set.RowsOf rows) (hcode : rows.toFinset.card < set.num_data)
    (hdata : (∀ row ∈ rows, row < set.num_data) →
      (set.placesOf false rows).card < NUM_DATA_SHREDS) :
    ∃ order, order.Perm rows ∧ set.Waits order := by
  by_cases hmem : ∃ row ∈ rows, set.num_data ≤ row
  · obtain ⟨row, hrow, hle⟩ := hmem
    exact exists_waits_of_code h hrow hle hcode
  push Not at hmem
  cases rows with
  | nil => exact ⟨[], List.Perm.refl _, set.one_le_needed _⟩
  | cons row rows =>
    exact exists_waits_of_data List.mem_cons_self (hmem row (by simp)) (hdata hmem)

/-- A data shred first, if there is one. -/
theorem exists_waits_dataFirst (h : set.RowsOf rows)
    (hdata : (set.placesOf false rows).card < NUM_DATA_SHREDS)
    (hcode : (∀ row ∈ rows, set.num_data ≤ row) → rows.toFinset.card < set.num_data) :
    ∃ order, order.Perm rows ∧ set.Waits order := by
  by_cases hmem : ∃ row ∈ rows, row < set.num_data
  · obtain ⟨row, hrow, hlt⟩ := hmem
    exact exists_waits_of_data hrow hlt hdata
  push Not at hmem
  cases rows with
  | nil => exact ⟨[], List.Perm.refl _, set.one_le_needed _⟩
  | cons row rows =>
    exact exists_waits_of_code h List.mem_cons_self (hmem row (by simp)) (hcode hmem)

/-- Rows that wait are used up. -/
theorem usedUp_of_waits (h : ∃ order, order.Perm rows ∧ set.Waits order) : set.UsedUp rows := by
  obtain ⟨order, hperm, hwaits⟩ := h
  exact ⟨[], order, hperm, fun _ h => absurd h List.not_mem_nil, hwaits⟩

/-- So are those that wait after a batch that cannot be cut up. -/
theorem usedUp_of_full {rest : List ℕ} (hfull : set.Full batch) (hcut : set.cut batch = none)
    (hperm : (batch ++ rest).Perm rows) (hrest : ∃ order, order.Perm rest ∧ set.Waits order) :
    set.UsedUp rows := by
  obtain ⟨order, hperm', hwaits⟩ := hrest
  refine ⟨[batch], order, ?_, ?_, hwaits⟩
  · rw [List.flatten_singleton]
    exact (hperm'.append_left batch).trans hperm
  · intro b hb
    rw [List.mem_singleton.mp hb]
    exact ⟨hfull, hcut⟩

end EncodedSet

end Sg32
