/-
Rows that publish one block in whatever order they arrive.

Rows of one kind all open batches of that kind.  With rows of both kinds either
may come first, so both kinds of batches must be filled and have the same
block, or leave the data to one that has it.

* `orderFree_of_allData`, `orderFree_of_allCode` — rows of one kind;
* `not_usedUp_of_agree`, `exists_agree_of_oneBlock` — rows of both kinds;
* `orderFree_other_iff` — sets with another number of data shreds than 32.
-/
import Sg32.UsedUpRows

namespace Sg32

open Rust FecBatch SlotRingBuffer Collector

namespace EncodedSet

variable {set : EncodedSet} {libs : Libs} {named : Bool} {rows rows' batch : List ℕ} {row : ℕ}

/-! ### When the order does not matter -/

/-- Rows of one kind, whose batches all give the same. -/
theorem orderFree_of_sameKind (libs : Libs) (h : set.RowsOf rows)
    (hkind : ∀ order, order ⊆ rows → order ≠ [] → set.namedBy order = named)
    (block : Option SlotData) (hone : ∀ batch, batch.Subperm rows → set.Full batch →
      set.blockOf libs batch = block) : OrderFree libs set rows := by
  rw [orderFree_iff libs h]
  have hsubRows : ∀ order, order.Subperm rows → order ≠ [] → set.namedBy order = named :=
    fun order hsub => hkind order hsub.subset
  by_cases hfew : (set.placesOf named rows).card < set.needed named
  · -- there is no full batch
    refine .inl fun batch hsub hfull => absurd hfull.card_eq ?_
    have hle : (set.placesOf named batch).card ≤ (set.placesOf named rows).card :=
      Finset.card_le_card (placesOf_mono hsub.subset)
    rw [hsubRows batch hsub hfull.ne_nil]
    omega
  cases block with
  | none => exact .inl fun batch hsub hfull => blockOf_eq_none_iff.mp (hone batch hsub hfull)
  | some block =>
    refine .inr ⟨⟨block, fun batch hsub hfull result hcut => ?_⟩, ?_⟩
    · have hblock := hone batch hsub hfull
      rw [blockOf, hcut, Option.map_some] at hblock
      exact Option.some.inj hblock
    · refine not_usedUp (fun order hperm hwaits => ?_) fun batch hsub hfull hcut => ?_
      · by_cases hne : order = []
        · subst hne
          rw [← placesOf_perm hperm] at hfew
          exact hfew (lt_of_le_of_lt (card_placesOf_le set named []) (set.one_le_needed named))
        · rw [Waits, hkind order hperm.subset hne, placesOf_perm hperm] at hwaits
          exact hfew hwaits
      · cases (blockOf_eq_none_iff.mpr hcut).symm.trans (hone batch hsub hfull)

/-- Data shreds only: every batch has the default dimensions, and all its
places. -/
theorem orderFree_of_allData (libs : Libs) (h : set.RowsOf rows)
    (hdata : ∀ row ∈ rows, row < set.num_data) : OrderFree libs set rows := by
  have hkind : ∀ order, order ⊆ rows → order ≠ [] → set.namedBy order = false := by
    intro order hsub hne
    cases order with
    | nil => exact absurd rfl hne
    | cons row order => exact decide_eq_false (Nat.not_le.mpr (hdata row (hsub List.mem_cons_self)))
  refine orderFree_of_sameKind libs h hkind ((set.cutUsual (Finset.range NUM_DATA_SHREDS)).map
    (set.publishedBlock libs set.parentSlot)) fun batch hsub hfull => ?_
  have hnamed := hkind batch hsub.subset hfull.ne_nil
  obtain ⟨husual, hparent⟩ := usual_of_full hsub.subset hfull hnamed
  have hplaces : set.placesOf false batch = Finset.range NUM_DATA_SHREDS := by
    refine Finset.eq_of_subset_of_card_le (fun r hr => ?_) (by rw [husual.card, Finset.card_range])
    have hlt := (mem_of_mem_placesOf_data (fun row hrow => hdata row (hsub.subset hrow)) hr).2
    exact Finset.mem_range.mpr hlt
  rw [blockOf, cut_usual hnamed, hplaces, hparent]

/-- Code shreds only: every batch recovers the data, without a parent. -/
theorem orderFree_of_allCode (libs : Libs) (h : set.RowsOf rows)
    (hcode : ∀ row ∈ rows, set.num_data ≤ row) : OrderFree libs set rows := by
  have hkind : ∀ order, order ⊆ rows → order ≠ [] → set.namedBy order = true := by
    intro order hsub hne
    cases order with
    | nil => exact absurd rfl hne
    | cons row order => exact decide_eq_true (hcode row (hsub List.mem_cons_self))
  refine orderFree_of_sameKind libs h hkind
    ((blockIn set.data_shreds).map (set.publishedBlock libs 0)) fun batch hsub hfull => ?_
  have hnamed := hkind batch hsub.subset hfull.ne_nil
  have hparent : set.parentOf batch = 0 := by
    refine if_neg ?_
    rintro ⟨row, hrow, hlt⟩
    exact absurd hlt (Nat.not_lt.mpr (hcode row (hsub.subset hrow)))
  rw [blockOf, cut_named (h.of_subperm hsub) hfull hnamed, hparent]

/-- A full batch without data shreds has all the code shreds that there can be. -/
theorem mem_of_full_code (h : set.RowsOf batch) (hfull : set.Full batch)
    (hnamed : set.namedBy batch = true) (hcode : ∀ row ∈ batch, set.num_data ≤ row) :
    ∀ i < set.num_data, set.num_data + i ∈ batch := by
  have hcodeData := set.code_le_data
  have hcard := hfull.card_eq
  rw [hnamed, placesOf_named h] at hcard
  have heq : batch.toFinset = Finset.Ico set.num_data (set.num_data + set.num_data) := by
    refine Finset.eq_of_subset_of_card_le (fun row hrow => ?_) ?_
    · have hmem := List.mem_toFinset.mp hrow
      have hlt := h row hmem
      exact Finset.mem_Ico.mpr ⟨hcode row hmem, by omega⟩
    · rw [hcard, Nat.card_Ico, Nat.add_sub_cancel_left]
      exact le_rfl
  intro i hi
  rw [← List.mem_toFinset, heq]
  exact Finset.mem_Ico.mpr ⟨Nat.le_add_right _ _, by omega⟩

/-- All these code shreds fill a batch. -/
theorem exists_full_code (h : set.RowsOf rows)
    (hall : ∀ i < set.num_data, set.num_data + i ∈ rows) :
    ∃ batch, batch.Subperm rows ∧ set.Full batch ∧ set.namedBy batch = true ∧
      set.parentOf batch = 0 := by
  obtain ⟨n, hn⟩ := Nat.exists_eq_add_of_le' (le_trans set.one_le_code set.code_le_data)
  have hmem : ∀ row ∈ List.range' set.num_data set.num_data, set.num_data ≤ row ∧ row ∈ rows := by
    intro row hrow
    obtain ⟨hle, hlt⟩ := List.mem_range'_1.mp hrow
    have hmem := hall (row - set.num_data) (by omega)
    rw [Nat.add_sub_cancel' hle] at hmem
    exact ⟨hle, hmem⟩
  have hcons : List.range' set.num_data set.num_data =
      set.num_data :: List.range' (set.num_data + 1) n :=
    (congrArg (fun k => List.range' set.num_data k) hn).trans rfl
  have hsub : List.range' set.num_data set.num_data ⊆ rows := fun row hrow => (hmem row hrow).2
  have hnodup : (List.range' set.num_data set.num_data).Nodup := List.nodup_range'
  obtain ⟨hfull, hnamed⟩ : set.Full (List.range' set.num_data set.num_data) ∧
      set.namedBy (List.range' set.num_data set.num_data) = true := by
    rw [hcons] at hsub hnodup ⊢
    refine full_named (fun row hrow => h row (hsub hrow)) le_rfl hnodup ?_
    rw [← hcons, List.length_range']
  refine ⟨_, List.subperm_of_subset hnodup hsub, hfull, hnamed, if_neg ?_⟩
  rintro ⟨row, hrow, hlt⟩
  exact absurd (hmem row hrow).1 (Nat.not_le.mpr hlt)

/-- The parent of a batch that a code shred opened. -/
theorem parentOf_named (h : set.RowsOf rows) (hsub : batch.Subperm rows) (hfull : set.Full batch)
    (hnamed : set.namedBy batch = true)
    (hparent : (∀ i < set.num_data, set.num_data + i ∈ rows) → set.parentSlot = 0) :
    set.parentOf batch = set.parentSlot := by
  by_cases hdata : ∃ row ∈ batch, row < set.num_data
  · exact if_pos hdata
  · rw [parentOf, if_neg hdata]
    push Not at hdata
    exact (hparent fun i hi =>
      hsub.subset (mem_of_full_code (h.of_subperm hsub) hfull hnamed hdata i hi)).symm

/-- A batch of all the code places has a code shred for each. -/
theorem mem_of_codePlaces (hplaces : set.placesOf false batch =
    Finset.Ico NUM_DATA_SHREDS (NUM_DATA_SHREDS + NUM_CODE_SHREDS)) {i : ℕ}
    (hi : i < NUM_CODE_SHREDS) : set.num_data + i ∈ batch := by
  have hmem : NUM_DATA_SHREDS + i ∈ set.placesOf false batch := by
    rw [hplaces]
    exact Finset.mem_Ico.mpr ⟨Nat.le_add_right _ _, Nat.add_lt_add_left hi _⟩
  obtain ⟨row, hrow, hplace⟩ := mem_placesOf.mp hmem
  have heq := code_of_place (Nat.le_add_right _ _) hplace
  rw [Nat.add_sub_cancel_left] at heq
  rwa [← heq]

theorem le_countP_code (hall : ∀ i < NUM_CODE_SHREDS, set.num_data + i ∈ batch) :
    NUM_CODE_SHREDS ≤ batch.countP (set.num_data ≤ ·) := by
  rw [List.countP_eq_length_filter]
  refine le_trans ?_ (List.toFinset_card_le _)
  have hsub : Finset.Ico set.num_data (set.num_data + NUM_CODE_SHREDS) ⊆
      (batch.filter fun row => set.num_data ≤ row).toFinset := by
    intro row hrow
    obtain ⟨hle, hlt⟩ := Finset.mem_Ico.mp hrow
    have hmem := hall (row - set.num_data) (by omega)
    rw [Nat.add_sub_cancel' hle] at hmem
    exact List.mem_toFinset.mpr (List.mem_filter.mpr ⟨hmem, decide_eq_true hle⟩)
  have hle := Finset.card_le_card hsub
  rwa [Nat.card_Ico, Nat.add_sub_cancel_left] at hle

section Agreed

variable {block : SlotData} {batches : List (List ℕ)} {rest : List ℕ}

/-- Rows that agree on a block are enough for either kind of batch. -/
theorem Agree.not_waits (hagree : set.Agree libs rows block) (h : set.RowsOf rows)
    (hperm : rest.Perm rows) : ¬ set.Waits rest := by
  intro hrest
  cases hnamed : set.namedBy rest with
  | true =>
    rw [waits_named_iff (h.of_subperm hperm.subperm) hnamed,
      List.toFinset_eq_of_perm _ _ hperm] at hrest
    exact absurd hagree.codeFirst (Nat.not_le.mpr hrest)
  | false =>
    rw [waits_usual_iff hnamed, placesOf_perm hperm] at hrest
    exact absurd hagree.dataFirst (Nat.not_le.mpr hrest)

/-- A batch of theirs that cannot be cut up leaves the data. -/
theorem Agree.leavesData (hagree : set.Agree libs rows block) (h : set.RowsOf rows)
    (hsub : batch.Subperm rows) (hfull : set.Full batch) (hcut : set.cut batch = none) :
    set.LeavesData rows (set.placesOf false batch) := by
  cases hnamed : set.namedBy batch with
  | true =>
    obtain ⟨result, hresult, -⟩ := hagree.data
    rw [cut_named (h.of_subperm hsub) hfull hnamed, blockIn_eq_none_iff, hresult] at hcut
    cases hcut
  | false =>
    rw [cut_usual hnamed] at hcut
    rcases hagree.usual _ (usual_of_full hsub.subset hfull hnamed).1 with hsome | ⟨-, hleaves⟩
    · rw [hcut] at hsome
      cases hsome
    · exact hleaves

/-- Batches of the code places leave the first 32 data shreds to the rest. -/
theorem data_mem_rest (hmany : NUM_DATA_SHREDS < set.num_data)
    (hperm : (batches.flatten ++ rest).Perm rows)
    (hplaces : ∀ batch ∈ batches, set.placesOf false batch =
      Finset.Ico NUM_DATA_SHREDS (NUM_DATA_SHREDS + NUM_CODE_SHREDS))
    (hdata : ∀ row < NUM_DATA_SHREDS, row ∈ rows) : ∀ row < NUM_DATA_SHREDS, row ∈ rest := by
  intro row hlt
  rcases List.mem_append.mp (hperm.symm.subset (hdata row hlt)) with hmem | hmem
  · obtain ⟨batch, hbatch, hrow⟩ := List.mem_flatten.mp hmem
    have hplace : row ∈ set.placesOf false batch :=
      mem_placesOf.mpr ⟨row, hrow, place_eq_some.mpr (.inl ⟨by omega, hlt, rfl⟩)⟩
    rw [hplaces batch hbatch] at hplace
    exact absurd (Finset.mem_Ico.mp hplace).1 (Nat.not_le.mpr hlt)
  · exact hmem

/-- The first 32 data shreds do not wait, unless a code shred comes before them
and 33 are not enough. -/
theorem not_waits_of_data (h : set.RowsOf rest) (hmany : NUM_DATA_SHREDS < set.num_data)
    (hdata : ∀ row < NUM_DATA_SHREDS, row ∈ rest)
    (hcode : (∃ row ∈ rest, set.num_data ≤ row) → set.num_data = 33) : ¬ set.Waits rest := by
  have husual : NUM_DATA_SHREDS = 32 := rfl
  intro hrest
  cases hnamed : set.namedBy rest with
  | false =>
    rw [waits_usual_iff hnamed] at hrest
    have hsub : Finset.range NUM_DATA_SHREDS ⊆ set.placesOf false rest := by
      intro row hrow
      have hlt := Finset.mem_range.mp hrow
      exact mem_placesOf.mpr ⟨row, hdata row hlt, place_eq_some.mpr (.inl ⟨by omega, hlt, rfl⟩)⟩
    have hle := Finset.card_le_card hsub
    rw [Finset.card_range] at hle
    omega
  | true =>
    obtain ⟨code, hmem, hle⟩ := exists_code_of_named hnamed
    have h33 := hcode ⟨code, hmem, hle⟩
    rw [waits_named_iff h hnamed] at hrest
    have hsub : insert code (Finset.range NUM_DATA_SHREDS) ⊆ rest.toFinset := by
      intro row hrow
      rcases Finset.mem_insert.mp hrow with rfl | hrow
      · exact List.mem_toFinset.mpr hmem
      · exact List.mem_toFinset.mpr (hdata row (Finset.mem_range.mp hrow))
    have hcard := Finset.card_le_card hsub
    have hnot : code ∉ Finset.range NUM_DATA_SHREDS := fun hin => by
      have := Finset.mem_range.mp hin
      omega
    rw [Finset.card_insert_of_notMem hnot, Finset.card_range] at hcard
    omega

/-- Rows that agree on a block cannot be used up. -/
theorem not_usedUp_of_agree (h : set.RowsOf rows) (hother : set.num_data ≠ NUM_DATA_SHREDS)
    (hagree : set.Agree libs rows block) : ¬ set.UsedUp rows := by
  rintro ⟨batches, rest, hperm, hbatches, hrest⟩
  have hsubs : ∀ batch ∈ batches, batch.Subperm rows := fun batch hmem =>
    subperm_of_mem_batches hperm hmem
  have hleaves : ∀ batch ∈ batches, set.LeavesData rows (set.placesOf false batch) :=
    fun batch hmem => hagree.leavesData h (hsubs batch hmem) (hbatches batch hmem).1
      (hbatches batch hmem).2
  cases batches with
  | nil => exact hagree.not_waits h hperm hrest
  | cons first batches =>
    -- the first batch has 32 code shreds
    have hfirst := hleaves first List.mem_cons_self
    have hcodes := fun i hi => mem_of_codePlaces hfirst.places (i := i) hi
    have hmany : NUM_DATA_SHREDS < set.num_data := by
      have hlt := h _ ((hsubs first List.mem_cons_self).subset (hcodes 31 (by decide)))
      have hle := set.code_le_data
      have husual : NUM_DATA_SHREDS = 32 := rfl
      omega
    refine not_waits_of_data (fun row hrow => ?_) hmany
      (data_mem_rest hmany hperm (fun batch hmem => (hleaves batch hmem).places) hfirst.data)
      (fun hcode => hfirst.code.resolve_right fun hcount => ?_) hrest
    · exact h row (hperm.subset (List.mem_append_right _ hrow))
    · -- there was one more
      obtain ⟨code, hmem, hle⟩ := hcode
      have hpos : 0 < rest.countP (set.num_data ≤ ·) :=
        List.countP_pos_iff.mpr ⟨code, hmem, decide_eq_true hle⟩
      have hall := le_countP_code hcodes
      rw [← hperm.countP_eq, List.flatten_cons, List.append_assoc, List.countP_append,
        List.countP_append] at hcount
      omega

theorem oneBlock_of_agree (h : set.RowsOf rows) (hother : set.num_data ≠ NUM_DATA_SHREDS)
    (hagree : set.Agree libs rows block) : set.OneBlock libs rows := by
  refine ⟨⟨block, fun batch hsub hfull result hcut => ?_⟩, not_usedUp_of_agree h hother hagree⟩
  have hbatch := h.of_subperm hsub
  cases hnamed : set.namedBy batch with
  | true =>
    obtain ⟨result', hresult, hblock⟩ := hagree.data
    rw [cut_named hbatch hfull hnamed, blockIn_eq_some_iff.mpr hresult, Option.some.injEq] at hcut
    rw [parentOf_named h hsub hfull hnamed hagree.parent, ← hcut, hblock]
  | false =>
    obtain ⟨husual, hparent⟩ := usual_of_full hsub.subset hfull hnamed
    rw [cut_usual hnamed] at hcut
    rcases hagree.usual _ husual with hsome | ⟨hnone, -⟩
    · rw [hcut, Option.map_some, Option.some.injEq] at hsome
      rw [hparent, hsome]
    · cases hcut.symm.trans hnone

end Agreed

/-- What rows of both kinds must have, when every order of them publishes the
same block. -/
theorem exists_agree_of_oneBlock (h : set.RowsOf rows) (hother : set.num_data ≠ NUM_DATA_SHREDS)
    (hrep : set.num_data ≠ 33 ∨ rows.Nodup) {data code : ℕ} (hdata : data ∈ rows)
    (hdataLt : data < set.num_data) (hcode : code ∈ rows) (hcodeLe : set.num_data ≤ code)
    (hone : set.OneBlock libs rows) : ∃ block, set.Agree libs rows block := by
  have husual : NUM_DATA_SHREDS = 32 := rfl
  have hcodeData := set.code_le_data
  obtain ⟨⟨block, hblock⟩, hused⟩ := hone
  have hcodeFirst : set.num_data ≤ rows.toFinset.card := by
    by_contra hfew
    exact hused (usedUp_of_waits (exists_waits_of_code h hcode hcodeLe (Nat.not_le.mp hfew)))
  have hdataFirst : NUM_DATA_SHREDS ≤ (set.placesOf false rows).card := by
    by_contra hfew
    exact hused (usedUp_of_waits (exists_waits_of_data hdata hdataLt (Nat.not_le.mp hfew)))
  have hresult : ∃ result, deshredIntoTxs set.data_shreds = .ok (some result) := by
    obtain ⟨result, hresult⟩ := deshredIntoTxs_returns set.data_shreds
    cases result with
    | none =>
      exact absurd (usedUp_of_data libs h (blockIn_eq_none_iff.mpr hresult) hcode hcodeLe) hused
    | some result => exact ⟨result, hresult⟩
  obtain ⟨result, hresult⟩ := hresult
  have hcut := blockIn_eq_some_iff.mpr hresult
  -- a batch that recovers the data, with a data shred in it
  have hdataBlock : set.publishedBlock libs set.parentSlot result = block := by
    have hroom : ({code, data} : Finset ℕ).card ≤ set.num_data := by
      have hle := le_trans hdataFirst (card_placesOf_le_toFinset set false rows)
      have hsub : rows.toFinset ⊆ Finset.range (set.num_data + set.num_code) := fun row hrow =>
        Finset.mem_range.mpr (h row (List.mem_toFinset.mp hrow))
      have hrange := Finset.card_le_card hsub
      rw [Finset.card_range] at hrange
      exact le_trans Finset.card_le_two (by omega)
    obtain ⟨batch, hsub, hfull, hnamed, hmem⟩ :=
      exists_full_named h hcode hcodeLe hcodeFirst hdata hroom
    have heq := hblock batch hsub hfull result
      ((cut_named (h.of_subperm hsub) hfull hnamed).trans hcut)
    rwa [parentOf, if_pos ⟨data, hmem, hdataLt⟩] at heq
  refine ⟨block, hcodeFirst, hdataFirst, ⟨result, hresult, hdataBlock⟩, fun hall => ?_,
    fun places hplaces => ?_⟩
  · -- the same without a data shred
    obtain ⟨batch, hsub, hfull, hnamed, hzero⟩ := exists_full_code h hall
    have heq := hblock batch hsub hfull result
      ((cut_named (h.of_subperm hsub) hfull hnamed).trans hcut)
    rw [hzero, ← hdataBlock] at heq
    exact (congrArg SlotData.parent_slot heq).symm
  · obtain ⟨batch, hsub, hfull, hnamed, rfl⟩ := hplaces.exists_full
    cases hcutUsual : set.cutUsual (set.placesOf false batch) with
    | some result' =>
      have heq := hblock batch hsub hfull result' ((cut_usual hnamed).trans hcutUsual)
      rw [(usual_of_full hsub.subset hfull hnamed).2] at heq
      rw [Option.map_some, heq]
      exact .inl rfl
    | none =>
      refine .inr ⟨rfl, ?_⟩
      by_contra hnot
      refine hused ?_
      rcases Nat.lt_or_gt_of_ne hother with hfew | hmany
      · exact usedUp_of_usual_few hfew h hplaces hcutUsual
      · exact usedUp_of_usual_many hmany hrep h hplaces hcutUsual hnot

/-- **Sets with another number of data shreds.**  The order of some rows does not
matter when they are of one kind, when nothing can be published, or when
everything that can come first publishes one block. -/
theorem orderFree_other_iff (libs : Libs) (h : set.RowsOf rows)
    (hother : set.num_data ≠ NUM_DATA_SHREDS) (hrep : set.num_data ≠ 33 ∨ rows.Nodup) :
    OrderFree libs set rows ↔
      (∀ row ∈ rows, row < set.num_data) ∨ (∀ row ∈ rows, set.num_data ≤ row) ∨
        set.Unpublishable rows ∨ ∃ block, set.Agree libs rows block := by
  constructor
  · intro hfree
    by_cases hdata : ∀ row ∈ rows, row < set.num_data
    · exact .inl hdata
    by_cases hcode : ∀ row ∈ rows, set.num_data ≤ row
    · exact .inr (.inl hcode)
    push Not at hdata hcode
    obtain ⟨code, hcodeMem, hcodeLe⟩ := hdata
    obtain ⟨data, hdataMem, hdataLt⟩ := hcode
    refine .inr (.inr ?_)
    rcases (orderFree_iff libs h).mp hfree with huncut | hone
    · exact .inl ((uncut_iff_unpublishable h).mp huncut)
    · exact .inr (exists_agree_of_oneBlock h hother hrep hdataMem hdataLt hcodeMem hcodeLe hone)
  · rintro (hdata | hcode | hnone | ⟨block, hagree⟩)
    · exact orderFree_of_allData libs h hdata
    · exact orderFree_of_allCode libs h hcode
    · exact (orderFree_iff libs h).mpr (.inl ((uncut_iff_unpublishable h).mpr hnone))
    · exact (orderFree_iff libs h).mpr (.inr (oneBlock_of_agree h hother hagree))

end EncodedSet

end Sg32
