/-
Rows that are used up without a block.

A batch that cannot be cut up is forgotten, and leaves the rows that come after
it.  They wait when they are too few for the batch that they open: as many as
there are data shreds after a code shred, and 32 after a data shred.

* `usedUp_of_data` — data that cannot be cut up;
* `usedUp_of_usual_few`, `usedUp_of_usual_many` — a batch of the default
  dimensions that cannot, with fewer than 32 data shreds and with more.
-/
import Sg32.DefaultDims

namespace Sg32

open Rust FecBatch SlotRingBuffer Collector

namespace EncodedSet

variable {set : EncodedSet} {libs : Libs} {named : Bool} {rows rows' batch : List ℕ} {row : ℕ}

/-! ### Data that cannot be cut up -/

/-- Data shreds fill their own rows. -/
theorem mem_of_mem_placesOf_data (hdata : ∀ row ∈ rows, row < set.num_data) {r : ℕ}
    (hr : r ∈ set.placesOf false rows) : r ∈ rows ∧ r < NUM_DATA_SHREDS := by
  obtain ⟨row, hrow, hplace⟩ := mem_placesOf.mp hr
  obtain ⟨rfl, hlt⟩ := place_data (hdata row hrow) hplace
  exact ⟨hrow, hlt⟩

/-- A batch that a data shred opens has none of the code shreds before it. -/
theorem subset_of_opened {codes others : List ℕ} (hcodes : ∀ row ∈ codes, set.num_data ≤ row)
    (hin : batch <:+: codes ++ others) (hne : batch ≠ []) (hnamed : set.namedBy batch = false) :
    batch ⊆ others := by
  obtain ⟨before, after, heq⟩ := hin
  rw [List.append_assoc] at heq
  rcases List.append_eq_append_iff.mp heq with ⟨middle, rfl, hmiddle⟩ | ⟨middle, -, rfl⟩
  · cases middle with
    | nil =>
      rw [List.nil_append] at hmiddle
      rw [← hmiddle]
      exact List.subset_append_left batch after
    | cons row middle =>
      -- it would start with one of them
      exfalso
      obtain ⟨row', batch', rfl⟩ := List.exists_cons_of_ne_nil hne
      rw [List.cons_append, List.cons_append, List.cons.injEq] at hmiddle
      have hle := hcodes row' (by simp [hmiddle.1])
      exact absurd hnamed (by rw [namedBy, decide_eq_true hle]; decide)
  · rw [← List.append_assoc]
    exact List.Subset.trans (List.subset_append_right middle batch)
      (List.subset_append_left _ after)

/-- Batches that cannot be cut up when they start with a code shred. -/
theorem run_eq_none_of_codeFirst (libs : Libs) (hnone : blockIn set.data_shreds = none)
    {codes others : List ℕ} (h : set.RowsOf (codes ++ others))
    (hcodes : ∀ row ∈ codes, set.num_data ≤ row)
    (hothers : (set.placesOf false others).card < NUM_DATA_SHREDS) :
    ((set.collector libs).run (codes ++ others)).2 = none := by
  refine runFrom_of_agree none fun batch result hin hcompletes => ?_
  have hbatch : set.RowsOf batch := fun row hrow => h row (hin.subset hrow)
  obtain ⟨hfull, rfl⟩ := (completes_iff hbatch).mp hcompletes
  rw [blockOf_eq_none_iff]
  cases hnamed : set.namedBy batch with
  | true => rw [cut_named hbatch hfull hnamed, hnone]
  | false =>
    have hsub := subset_of_opened hcodes hin hfull.ne_nil hnamed
    have hnow := hfull.now
    rw [waits_usual_iff hnamed, Nat.not_lt] at hnow
    have hle := le_trans hnow (Finset.card_le_card (placesOf_mono hsub))
    exact absurd (lt_of_le_of_lt hle hothers) (lt_irrefl _)

/-- A first batch that a code shred opens gives nothing. -/
theorem run_of_first_named (hnone : blockIn set.data_shreds = none) {first rest : List ℕ}
    {result : Option SlotData} (h : set.RowsOf first) (hnamed : set.namedBy first = true)
    (hfirst : (set.collector libs).Completes first result) :
    (set.collector libs).run (first ++ rest) = (set.collector libs).run rest := by
  obtain ⟨hfull, rfl⟩ := (completes_iff h).mp hfirst
  rw [blockOf_eq_none_iff.mpr ((cut_named h hfull hnamed).trans hnone)] at hfirst
  exact run_append_of_completes_none hfirst

/-- Rows that wait, opened by a code shred, and then code shreds: the first
batch has all that waited. -/
theorem run_eq_none_of_stays (hnone : blockIn set.data_shreds = none) {waiting codes : List ℕ}
    (h : set.RowsOf (waiting ++ codes)) (hne : waiting ≠ [])
    (hnamed : set.namedBy waiting = true) (hcodes : ∀ row ∈ codes, set.num_data ≤ row)
    (hstays : (set.collector libs).Stays waiting) :
    ((set.collector libs).run (waiting ++ codes)).2 = none := by
  by_cases hall : (set.collector libs).Stays (waiting ++ codes)
  · rw [Collector.run, runFrom_of_stays none hall]
  obtain ⟨first, result, rest, heq, hfirst, -⟩ := exists_first_batch hall
  obtain ⟨b, hb, hfinish⟩ := hfirst.finish
  rcases List.append_eq_append_iff.mp heq with ⟨middle, rfl, hmiddle⟩ | ⟨middle, hmiddle, -⟩
  · have hrest : rest ⊆ codes := by
      rw [hmiddle]
      exact List.subset_append_right middle rest
    have hfirstNamed : set.namedBy (waiting ++ middle) = true := by
      rw [namedBy_append hne, hnamed]
    rw [heq] at h ⊢
    rw [run_of_first_named hnone (fun row hrow => h row (List.mem_append_left rest hrow))
      hfirstNamed hfirst, ← List.append_nil rest]
    refine run_eq_none_of_codeFirst libs hnone (fun row hrow => h row ?_)
      (fun row hrow => hcodes row (hrest hrow))
      (lt_of_le_of_lt (card_placesOf_le set false []) (by decide))
    rw [List.append_nil] at hrow
    exact List.mem_append_right _ hrow
  · cases (hstays first b ⟨middle, hmiddle.symm⟩ hb).symm.trans hfinish

/-- **What a first batch leaves**: after a code shred, the data shreds but the
last two are not enough, so fewer than 32 places are left to fill. -/
theorem card_placesOf_rest_lt {code : ℕ} {early late first rest : List ℕ} (h : set.RowsOf first)
    (heq : code :: early ++ late = first ++ rest) (hfull : set.Full first)
    (hnamed : set.namedBy first = true) (hdata : ∀ row ∈ rest, row < set.num_data)
    (hearly : ∀ row ∈ early, row + 2 < set.num_data)
    (hlate : ∀ row ∈ late, ¬ row + 2 < set.num_data) :
    (set.placesOf false rest).card < NUM_DATA_SHREDS := by
  have husual : NUM_DATA_SHREDS = 32 := rfl
  rcases Nat.lt_or_ge set.num_data NUM_DATA_SHREDS with hfew | hmany
  · have hsub : set.placesOf false rest ⊆ Finset.range set.num_data := fun r hr =>
      Finset.mem_range.mpr (hdata r (mem_of_mem_placesOf_data hdata hr).1)
    have hle := Finset.card_le_card hsub
    rw [Finset.card_range] at hle
    exact lt_of_le_of_lt hle hfew
  rcases List.append_eq_append_iff.mp heq with ⟨middle, -, hmiddle⟩ | ⟨middle, hmiddle, -⟩
  · -- the late ones are two
    have hsub : set.placesOf false rest ⊆ Finset.Ico (set.num_data - 2) set.num_data := by
      intro r hr
      have hrow := (mem_of_mem_placesOf_data hdata hr).1
      have hend := hlate r (hmiddle ▸ List.mem_append_right middle hrow)
      exact Finset.mem_Ico.mpr ⟨by omega, hdata r hrow⟩
    have hle := Finset.card_le_card hsub
    rw [Nat.card_Ico] at hle
    omega
  · -- the code shred and the early ones do not fill a batch
    refine absurd ((waits_named_iff h hnamed).mpr ?_) hfull.now
    have hsub : first.toFinset ⊆ insert code (Finset.range (set.num_data - 2)) := by
      intro row hrow
      have hmem : row ∈ code :: early := by
        rw [hmiddle]
        exact List.mem_append_left middle (List.mem_toFinset.mp hrow)
      rcases List.mem_cons.mp hmem with rfl | hmem
      · exact Finset.mem_insert_self _ _
      · have hbegin := hearly row hmem
        exact Finset.mem_insert_of_mem (Finset.mem_range.mpr (by omega))
    have hcard := le_trans (Finset.card_le_card hsub) (Finset.card_insert_le _ _)
    rw [Finset.card_range] at hcard
    omega

/-- **Data that cannot be cut up**: with a code shred first, then the data
shreds, and then other code shreds, all rows are used up. -/
theorem usedUp_of_data (libs : Libs) (h : set.RowsOf rows) (hnone : blockIn set.data_shreds = none)
    {code : ℕ} (hmem : code ∈ rows) (hcode : set.num_data ≤ code) : set.UsedUp rows := by
  -- the last two data shreds come after the others
  set datas := (rows.erase code).filter fun row => row < set.num_data with hdatas
  set codes := (rows.erase code).filter fun row => ¬ row < set.num_data with hcodes
  set early := datas.filter fun row => row + 2 < set.num_data with hearly
  set late := datas.filter fun row => ¬ row + 2 < set.num_data with hlate
  have hdatasPerm : (early ++ late).Perm datas := by
    simpa only [hearly, hlate, decide_not] using List.filter_append_perm _ datas
  have hperm : (code :: early ++ late ++ codes).Perm rows := by
    refine List.Perm.trans ?_ (List.perm_cons_erase hmem).symm
    rw [List.cons_append, List.cons_append]
    refine List.Perm.cons code ((hdatasPerm.append_right codes).trans ?_)
    simpa only [hdatas, hcodes, decide_not] using List.filter_append_perm _ (rows.erase code)
  have hle : ∀ row ∈ codes, set.num_data ≤ row := fun row hrow =>
    Nat.not_lt.mp (of_decide_eq_true (List.mem_filter.mp hrow).2)
  rw [usedUp_iff libs h]
  by_cases hstays : (set.collector libs).Stays (code :: early ++ late)
  · exact ⟨_, hperm, run_eq_none_of_stays hnone (fun row hrow => h row (hperm.subset hrow))
      (List.cons_ne_nil _ _) (decide_eq_true hcode) hle hstays⟩
  -- the first batch is full before the other code shreds, which then come next
  obtain ⟨first, result, rest, heq, hfirst, -⟩ := exists_first_batch hstays
  obtain ⟨row, first, rfl⟩ := List.exists_cons_of_ne_nil hfirst.ne_nil
  have hcons := heq
  rw [List.cons_append, List.cons_append, List.cons.injEq] at hcons
  obtain ⟨rfl, htail⟩ := hcons
  have hperm' : (code :: first ++ (codes ++ rest)).Perm rows := by
    refine List.Perm.trans ?_ hperm
    rw [heq, List.append_assoc]
    exact List.perm_append_comm.append_left (code :: first)
  have hfirstRows : set.RowsOf (code :: first) := fun row hrow =>
    h row (hperm'.subset (List.mem_append_left _ hrow))
  have hrest : ∀ row ∈ rest, row < set.num_data := by
    intro row hrow
    have hmem' : row ∈ early ++ late := htail ▸ List.mem_append_right first hrow
    exact of_decide_eq_true (List.mem_filter.mp (hdatasPerm.subset hmem')).2
  refine ⟨_, hperm', ?_⟩
  rw [run_of_first_named hnone hfirstRows (decide_eq_true hcode) hfirst]
  refine run_eq_none_of_codeFirst libs hnone
    (fun row hrow => h row (hperm'.subset (List.mem_append_right _ hrow))) hle ?_
  exact card_placesOf_rest_lt hfirstRows heq ((completes_iff hfirstRows).mp hfirst).1
    (decide_eq_true hcode) hrest
    (fun row hrow => of_decide_eq_true (List.mem_filter.mp hrow).2)
    (fun row hrow => of_decide_eq_true (List.mem_filter.mp hrow).2)

/-! ### A batch of the default dimensions that cannot be cut up -/

/-- The rows behind a batch with these places that `last` completes: those that
do not join it, and `last` when it comes again. -/
def leftBehind (set : EncodedSet) (rows : List ℕ) (places : Finset ℕ) (last : ℕ) : List ℕ :=
  (rows.filter fun row => ¬ set.Absorbed places row) ++ List.replicate (rows.count last - 1) last

section LeftBehind

variable {places : Finset ℕ} {first last r : ℕ}

theorem mem_leftBehind (h : row ∈ set.leftBehind rows places last) :
    row ∈ rows ∧ ¬ set.Absorbed places row ∨ row = last ∧ 2 ≤ rows.count last := by
  rcases List.mem_append.mp h with hmem | hmem
  · obtain ⟨hrow, hnot⟩ := List.mem_filter.mp hmem
    exact .inl ⟨hrow, of_decide_eq_true hnot⟩
  · obtain ⟨hcount, hrow⟩ := List.mem_replicate.mp hmem
    exact .inr ⟨hrow, by omega⟩

theorem rowsOf_leftBehind (h : set.RowsOf rows) (hlast : last ∈ rows) :
    set.RowsOf (set.leftBehind rows places last) := by
  intro row hrow
  rcases mem_leftBehind hrow with ⟨hmem, -⟩ | ⟨rfl, -⟩
  · exact h row hmem
  · exact h row hlast

/-- **A batch of the default dimensions that cannot be cut up**, and rows that
wait after it. -/
theorem usedUp_of_usual (hcard : places.card = NUM_DATA_SHREDS)
    (hcut : set.cutUsual places = none) (take : ℕ → Prop) [DecidablePred take]
    (htake : ∀ row, take row → set.Absorbed places row)
    (hall : ∀ r ∈ places, ∃ row ∈ rows, take row ∧ set.place false row = some r)
    (hfirst : first ∈ rows) (hdata : first < set.num_data) (htaken : take first)
    (hlast : last ∈ rows) (htaken' : take last) (hplace : set.place false last = some r)
    (hne : first ≠ last)
    (hrest : ∃ order, order.Perm ((rows.filter fun row => ¬ take row) ++
      List.replicate (rows.count last - 1) last) ∧ set.Waits order) : set.UsedUp rows := by
  obtain ⟨batch, hperm, hfull, hnamed, hplaces⟩ :=
    exists_full_usual hcard take htake hall hfirst hdata htaken hlast htaken' hplace hne
  refine usedUp_of_full hfull ?_ hperm hrest
  rw [cut_usual hnamed, hplaces, hcut]

/-- The same when all rows join the batch that can. -/
theorem Usual.usedUp (h : set.Usual rows places) (hcut : set.cutUsual places = none)
    (hfirst : first ∈ rows) (hdata : first < set.num_data) (htaken : set.Absorbed places first)
    (hlast : last ∈ rows) (htaken' : set.Absorbed places last)
    (hplace : set.place false last = some r) (hne : first ≠ last)
    (hrest : ∃ order, order.Perm (set.leftBehind rows places last) ∧ set.Waits order) :
    set.UsedUp rows :=
  usedUp_of_usual h.card hcut (set.Absorbed places) (fun _ htake => htake)
    (fun _ hr => h.exists_absorbed hr) hfirst hdata htaken hlast htaken' hplace hne hrest

/-- The rows that do not join a batch of 32 places are at least 32 fewer. -/
theorem card_left_le (h : set.Usual rows places) (hrows : set.RowsOf rows) :
    (rows.filter fun row => ¬ set.Absorbed places row).toFinset.card + NUM_DATA_SHREDS ≤
      set.num_data + set.num_code := by
  have htaken : NUM_DATA_SHREDS ≤
      (rows.filter fun row => set.Absorbed places row).toFinset.card := by
    rw [← h.card]
    refine le_trans (Finset.card_le_card fun r hr => ?_) (card_placesOf_le_toFinset set false _)
    obtain ⟨row, hrow, habsorbed, hplace⟩ := h.exists_absorbed hr
    exact mem_placesOf.mpr ⟨row, List.mem_filter.mpr ⟨hrow, decide_eq_true habsorbed⟩, hplace⟩
  have hdisjoint : Disjoint (rows.filter fun row => ¬ set.Absorbed places row).toFinset
      (rows.filter fun row => set.Absorbed places row).toFinset := by
    refine Finset.disjoint_left.mpr fun row hrow hrow' => ?_
    have hnot := of_decide_eq_true (List.mem_filter.mp (List.mem_toFinset.mp hrow)).2
    exact hnot (of_decide_eq_true (List.mem_filter.mp (List.mem_toFinset.mp hrow')).2)
  have hsub : (rows.filter fun row => ¬ set.Absorbed places row).toFinset ∪
      (rows.filter fun row => set.Absorbed places row).toFinset ⊆
      Finset.range (set.num_data + set.num_code) := by
    intro row hrow
    refine Finset.mem_range.mpr (hrows row ?_)
    rcases Finset.mem_union.mp hrow with hrow | hrow <;>
      exact (List.mem_filter.mp (List.mem_toFinset.mp hrow)).1
  have hle := Finset.card_le_card hsub
  rw [Finset.card_union_of_disjoint hdisjoint, Finset.card_range] at hle
  omega

theorem card_leftBehind_le (set : EncodedSet) (rows : List ℕ) (places : Finset ℕ) (last : ℕ) :
    (set.leftBehind rows places last).toFinset.card ≤
      (rows.filter fun row => ¬ set.Absorbed places row).toFinset.card + 1 := by
  have hsub : (set.leftBehind rows places last).toFinset ⊆
      insert last (rows.filter fun row => ¬ set.Absorbed places row).toFinset := by
    intro row hrow
    rcases List.mem_append.mp (List.mem_toFinset.mp hrow) with hmem | hmem
    · exact Finset.mem_insert_of_mem (List.mem_toFinset.mpr hmem)
    · rw [(List.mem_replicate.mp hmem).2]
      exact Finset.mem_insert_self _ _
  exact le_trans (Finset.card_le_card hsub) (Finset.card_insert_le _ _)

/-! ### Fewer than 32 data shreds -/

/-- What is left fills fewer than 32 places. -/
theorem card_placesOf_leftBehind_lt (hfew : set.num_data < NUM_DATA_SHREDS)
    (hrows : set.RowsOf rows) (h : set.Usual rows places) :
    (set.placesOf false (set.leftBehind rows places last)).card < NUM_DATA_SHREDS := by
  have hcodeData := set.code_le_data
  have hle := card_leftBehind_le set rows places last
  have hleft := card_left_le h hrows
  refine lt_of_le_of_lt (card_placesOf_le_toFinset set false _) ?_
  omega

/-- Code shreds that are left when a data shred came last are not enough. -/
theorem card_leftBehind_lt_of_code (hfew : set.num_data < NUM_DATA_SHREDS)
    (hrows : set.RowsOf rows) (h : set.Usual rows places) (hdata : last < set.num_data)
    (hcode : ∀ row ∈ set.leftBehind rows places last, set.num_data ≤ row) :
    (set.leftBehind rows places last).toFinset.card < set.num_data := by
  have hcodeData := set.code_le_data
  have hsub : (set.leftBehind rows places last).toFinset ⊆
      (rows.filter fun row => ¬ set.Absorbed places row).toFinset := by
    intro row hrow
    rcases List.mem_append.mp (List.mem_toFinset.mp hrow) with hmem | hmem
    · exact List.mem_toFinset.mpr hmem
    · have hle := hcode row (List.mem_toFinset.mp hrow)
      rw [(List.mem_replicate.mp hmem).2] at hle
      omega
  have hle := Finset.card_le_card hsub
  have hleft := card_left_le h hrows
  omega

/-- Places of one data shred and 31 code shreds are those of all the code
shreds. -/
theorem mem_of_one_data (hfew : set.num_data < NUM_DATA_SHREDS) (hrows : set.RowsOf rows)
    (h : set.Usual rows places) (hin : first ∈ places)
    (honly : ∀ r ∈ places, r < NUM_DATA_SHREDS → r = first) :
    NUM_DATA_SHREDS ≤ set.num_code + 1 ∧ ∀ i < set.num_code, NUM_DATA_SHREDS + i ∈ places := by
  have husual : NUM_DATA_SHREDS = 32 := rfl
  have hcodeData := set.code_le_data
  have hsub : places.erase first ⊆
      Finset.Ico NUM_DATA_SHREDS (NUM_DATA_SHREDS + set.num_code) := by
    intro r hr
    obtain ⟨hne, hr⟩ := Finset.mem_erase.mp hr
    obtain ⟨row, hrow, -, hplace⟩ := h.exists_absorbed hr
    have hlt := hrows row hrow
    have hneeded : set.needed false = NUM_DATA_SHREDS := rfl
    rcases place_eq_some.mp hplace with ⟨-, hlt', rfl⟩ | ⟨hle, -, rfl⟩
    · exact absurd (honly r hr hlt') hne
    · exact Finset.mem_Ico.mpr ⟨by omega, by omega⟩
  have hcard := Finset.card_le_card hsub
  rw [Finset.card_erase_of_mem hin, h.card, Nat.card_Ico] at hcard
  have hall := Finset.eq_of_subset_of_card_le hsub (by
    rw [Finset.card_erase_of_mem hin, h.card, Nat.card_Ico]
    omega)
  refine ⟨by omega, fun i hi => Finset.mem_of_mem_erase (a := first) ?_⟩
  rw [hall]
  exact Finset.mem_Ico.mpr ⟨by omega, by omega⟩

/-- With fewer than 32 data shreds, a batch of the default dimensions that
cannot be cut up always leaves rows that wait. -/
theorem usedUp_of_usual_few (hfew : set.num_data < NUM_DATA_SHREDS) (hrows : set.RowsOf rows)
    (h : set.Usual rows places) (hcut : set.cutUsual places = none) : set.UsedUp rows := by
  have husual : NUM_DATA_SHREDS = 32 := rfl
  have hneeded : set.needed false = NUM_DATA_SHREDS := rfl
  obtain ⟨first, hfirst, hdata, hopened⟩ := h.opened
  have hin : first ∈ places := hopened.resolve_right (by omega)
  have htaken := absorbed_of_opened hdata hopened
  by_cases htwo : ∃ r ∈ places, r < NUM_DATA_SHREDS ∧ r ≠ first
  · -- another data shred comes last, so code shreds that are left are not enough
    obtain ⟨r, hr, hlt, hne⟩ := htwo
    obtain ⟨last, hlast, htakenLast, hplace⟩ := h.exists_absorbed hr
    have hlastData : last < set.num_data := by
      rcases place_eq_some.mp hplace with ⟨hlt', -⟩ | ⟨-, -, rfl⟩ <;> omega
    obtain ⟨rfl, -⟩ := place_data hlastData hplace
    exact h.usedUp hcut hfirst hdata htaken hlast htakenLast hplace hne.symm
      (exists_waits_dataFirst (rowsOf_leftBehind hrows hlast)
        (card_placesOf_leftBehind_lt hfew hrows h)
        (card_leftBehind_lt_of_code hfew hrows h hlastData))
  · -- one data shred and 31 code shreds: there are no others
    have honly : ∀ r ∈ places, r < NUM_DATA_SHREDS → r = first := fun r hr hlt =>
      Classical.byContradiction fun hne => htwo ⟨r, hr, hlt, hne⟩
    obtain ⟨hmany, hall⟩ := mem_of_one_data hfew hrows h hin honly
    obtain ⟨last, hlast, htakenLast, hplace⟩ := h.exists_absorbed (hall 0 (by omega))
    have hne : first ≠ last := by
      rintro rfl
      have := place_data hdata hplace
      omega
    refine h.usedUp hcut hfirst hdata htaken hlast htakenLast hplace hne
      (exists_waits_dataFirst (rowsOf_leftBehind hrows hlast)
        (card_placesOf_leftBehind_lt hfew hrows h) fun hcode => ?_)
    have hsingle : (set.leftBehind rows places last).toFinset ⊆ {last} := by
      intro row hrow
      have hmem := List.mem_toFinset.mp hrow
      rcases mem_leftBehind hmem with ⟨hrow', hnot⟩ | ⟨rfl, -⟩
      · refine absurd (fun r hr => ?_) hnot
        have hlt := hrows row hrow'
        have hle := hcode row hmem
        rcases place_eq_some.mp hr with ⟨hlt', -⟩ | ⟨-, -, rfl⟩
        · omega
        · exact hall _ (by omega)
      · exact Finset.mem_singleton_self row
    have hle := Finset.card_le_card hsingle
    rw [Finset.card_singleton] at hle
    have hcodeData := set.code_le_data
    omega

/-! ### More than 32 data shreds -/

theorem place_lt (hplace : set.place false row = some r) :
    r < NUM_DATA_SHREDS + NUM_CODE_SHREDS := by
  have husual : NUM_DATA_SHREDS = 32 := rfl
  rcases place_eq_some.mp hplace with ⟨-, hlt, rfl⟩ | ⟨-, hlt, rfl⟩
  · exact Nat.lt_add_right _ hlt
  · exact Nat.add_lt_add_left hlt _

/-- A code shred has a place after those of the data. -/
theorem code_of_place (hle : NUM_DATA_SHREDS ≤ r) (hplace : set.place false row = some r) :
    row = set.num_data + (r - NUM_DATA_SHREDS) := by
  have hneeded : set.needed false = NUM_DATA_SHREDS := rfl
  rcases place_eq_some.mp hplace with ⟨-, hlt, rfl⟩ | ⟨hcode, -, rfl⟩ <;> omega

/-- Behind a batch of 32 places at most 32 others are left. -/
theorem card_left_le_of_places (h : set.Usual rows places) :
    (rows.filter fun row => ¬ set.Absorbed places row).toFinset.card ≤ NUM_CODE_SHREDS := by
  set left := rows.filter fun row => ¬ set.Absorbed places row with hleft
  have hplaced : ∀ row ∈ left, ∃ r, set.place false row = some r ∧ r ∉ places := by
    intro row hrow
    have hnot := of_decide_eq_true (List.mem_filter.mp hrow).2
    simp only [Absorbed, not_forall] at hnot
    obtain ⟨r, hplace, hr⟩ := hnot
    exact ⟨r, hplace, hr⟩
  have hcard : (set.placesOf false left.dedup).card = left.dedup.length := by
    refine card_placesOf left.nodup_dedup fun row hrow => ?_
    obtain ⟨r, hplace, -⟩ := hplaced row (List.mem_dedup.mp hrow)
    rw [hplace]
    rfl
  have hsub : set.placesOf false left.dedup ⊆
      Finset.range (NUM_DATA_SHREDS + NUM_CODE_SHREDS) \ places := by
    intro r hr
    obtain ⟨row, hrow, hplace⟩ := mem_placesOf.mp hr
    obtain ⟨r', hplace', hnot⟩ := hplaced row (List.mem_dedup.mp hrow)
    cases hplace.symm.trans hplace'
    exact Finset.mem_sdiff.mpr ⟨Finset.mem_range.mpr (place_lt hplace), hnot⟩
  have hplaces : places ⊆ Finset.range (NUM_DATA_SHREDS + NUM_CODE_SHREDS) := by
    intro r hr
    obtain ⟨row, -, -, hplace⟩ := h.exists_absorbed hr
    exact Finset.mem_range.mpr (place_lt hplace)
  have hle := Finset.card_le_card hsub
  rw [Finset.card_sdiff_of_subset hplaces, Finset.card_range, h.card, hcard,
    Nat.add_sub_cancel_left] at hle
  exact hle

/-- What is left is not enough after a code shred. -/
theorem card_leftBehind_lt (hmany : NUM_DATA_SHREDS < set.num_data)
    (hrep : set.num_data ≠ 33 ∨ rows.Nodup) (h : set.Usual rows places) (last : ℕ) :
    (set.leftBehind rows places last).toFinset.card < set.num_data := by
  have husual : NUM_DATA_SHREDS = 32 := rfl
  have hcodes : NUM_CODE_SHREDS = 32 := rfl
  have hleft := card_left_le_of_places h
  rcases Nat.lt_or_ge (rows.count last) 2 with honce | htwice
  · rw [leftBehind, Nat.sub_eq_zero_of_le (Nat.le_of_lt_succ honce), List.replicate_zero,
      List.append_nil]
    exact lt_of_le_of_lt hleft hmany
  · have h33 : set.num_data ≠ 33 := by
      refine hrep.resolve_right fun hnodup => ?_
      have := List.nodup_iff_count_le_one.mp hnodup last
      omega
    have hle := card_leftBehind_le set rows places last
    omega

/-- The places of 32 code shreds: the first 32 of them join the batch. -/
theorem Usual.code (h : set.Usual rows places)
    (hplaces : places = Finset.Ico NUM_DATA_SHREDS (NUM_DATA_SHREDS + NUM_CODE_SHREDS)) {i : ℕ}
    (hi : i < NUM_CODE_SHREDS) : set.num_data + i ∈ rows ∧
      set.Absorbed places (set.num_data + i) ∧
        set.place false (set.num_data + i) = some (NUM_DATA_SHREDS + i) := by
  have hmem : NUM_DATA_SHREDS + i ∈ places := by
    rw [hplaces]
    exact Finset.mem_Ico.mpr ⟨Nat.le_add_right _ _, Nat.add_lt_add_left hi _⟩
  obtain ⟨row, hrow, habsorbed, hplace⟩ := h.exists_absorbed hmem
  have heq := code_of_place (Nat.le_add_right _ _) hplace
  rw [Nat.add_sub_cancel_left] at heq
  subst heq
  exact ⟨hrow, habsorbed, hplace⟩

/-- When each of the first 32 code shreds comes once, and there are not just 32
code shreds, there is another one. -/
theorem exists_other_code
    (hall : ∀ i < NUM_CODE_SHREDS, set.num_data + i ∈ rows ∧ rows.count (set.num_data + i) < 2)
    (hcount : rows.countP (set.num_data ≤ ·) ≠ NUM_CODE_SHREDS) :
    ∃ other ∈ rows, set.num_data + NUM_CODE_SHREDS ≤ other := by
  by_contra hnone
  push Not at hnone
  have hcodes : ∀ row, row ∈ rows.filter (fun row => set.num_data ≤ row) ↔
      set.num_data ≤ row ∧ row < set.num_data + NUM_CODE_SHREDS := by
    intro row
    rw [List.mem_filter, decide_eq_true_iff]
    constructor
    · exact fun ⟨hmem, hle⟩ => ⟨hle, hnone row hmem⟩
    · rintro ⟨hle, hlt⟩
      obtain ⟨hmem, -⟩ := hall (row - set.num_data) (by omega)
      rw [Nat.add_sub_cancel' hle] at hmem
      exact ⟨hmem, hle⟩
  have hnodup : (rows.filter fun row => set.num_data ≤ row).Nodup := by
    refine List.nodup_iff_count_le_one.mpr fun row => ?_
    by_cases hmem : row ∈ rows.filter (fun row => set.num_data ≤ row)
    · obtain ⟨hle, hlt⟩ := (hcodes row).mp hmem
      obtain ⟨-, honce⟩ := hall (row - set.num_data) (by omega)
      rw [Nat.add_sub_cancel' hle] at honce
      exact le_trans (List.filter_sublist.count_le row) (Nat.le_of_lt_succ honce)
    · rw [List.count_eq_zero.mpr hmem]
      exact Nat.zero_le 1
  have heq : (rows.filter fun row => set.num_data ≤ row).toFinset =
      Finset.Ico set.num_data (set.num_data + NUM_CODE_SHREDS) := by
    ext row
    rw [List.mem_toFinset, hcodes, Finset.mem_Ico]
  refine hcount ?_
  rw [List.countP_eq_length_filter, ← List.toFinset_card_of_nodup hnodup, heq, Nat.card_Ico,
    Nat.add_sub_cancel_left]

/-- One more row is kept out of the batch. -/
theorem card_filter_ne_le (set : EncodedSet) (rows : List ℕ) (places : Finset ℕ) (other : ℕ) :
    (rows.filter fun row => ¬ (set.Absorbed places row ∧ row ≠ other)).toFinset.card ≤
      (rows.filter fun row => ¬ set.Absorbed places row).toFinset.card + 1 := by
  have hsub : (rows.filter fun row => ¬ (set.Absorbed places row ∧ row ≠ other)).toFinset ⊆
      insert other (rows.filter fun row => ¬ set.Absorbed places row).toFinset := by
    intro row hrow
    obtain ⟨hmem, hnot⟩ := List.mem_filter.mp (List.mem_toFinset.mp hrow)
    have hnot' : ¬ (set.Absorbed places row ∧ row ≠ other) := of_decide_eq_true hnot
    by_cases heq : row = other
    · rw [heq]
      exact Finset.mem_insert_self _ _
    · refine Finset.mem_insert_of_mem (List.mem_toFinset.mpr (List.mem_filter.mpr ⟨hmem, ?_⟩))
      exact decide_eq_true fun habsorbed => hnot' ⟨habsorbed, heq⟩
  exact le_trans (Finset.card_le_card hsub) (Finset.card_insert_le _ _)

/-- **The default batch of 32 code shreds** leaves the first 32 data shreds; if
there is another code shred to come before them, or one of the 32 comes again,
they wait. -/
theorem usedUp_of_code (hmany : NUM_DATA_SHREDS < set.num_data) (h33 : set.num_data ≠ 33)
    (hrows : set.RowsOf rows) (h : set.Usual rows places) (hcut : set.cutUsual places = none)
    (hplaces : places = Finset.Ico NUM_DATA_SHREDS (NUM_DATA_SHREDS + NUM_CODE_SHREDS))
    (hcount : rows.countP (set.num_data ≤ ·) ≠ NUM_CODE_SHREDS) : set.UsedUp rows := by
  have husual : NUM_DATA_SHREDS = 32 := rfl
  have hcodes : NUM_CODE_SHREDS = 32 := rfl
  obtain ⟨first, hfirst, hdata, hopened⟩ := h.opened
  have htaken := absorbed_of_opened hdata hopened
  by_cases htwice : ∃ i < NUM_CODE_SHREDS, 2 ≤ rows.count (set.num_data + i)
  · -- the code shred that comes again is last, and first of what is left
    obtain ⟨i, hi, htwice⟩ := htwice
    obtain ⟨hlast, htakenLast, hplace⟩ := h.code hplaces hi
    refine h.usedUp hcut hfirst hdata htaken hlast htakenLast hplace (by omega)
      (exists_waits_of_code (rowsOf_leftBehind hrows hlast) ?_ (Nat.le_add_right set.num_data i)
        (card_leftBehind_lt hmany (.inl h33) h _))
    exact List.mem_append_right _ (List.mem_replicate.mpr ⟨by omega, rfl⟩)
  -- each of the 32 comes once, so another one is kept out, and is first of what is left
  push Not at htwice
  obtain ⟨other, hmemOther, hother⟩ :=
    exists_other_code (fun i hi => ⟨(h.code hplaces hi).1, htwice i hi⟩) hcount
  obtain ⟨hlast, htakenLast, hplace⟩ := h.code hplaces (i := 0) (by omega)
  have honce := htwice 0 (by omega)
  rw [Nat.add_zero] at hlast htakenLast hplace honce
  refine usedUp_of_usual h.card hcut (fun row => set.Absorbed places row ∧ row ≠ other)
    (fun _ htake => htake.1) (fun r' hr' => ?_) hfirst hdata ⟨htaken, by omega⟩ hlast
    ⟨htakenLast, by omega⟩ hplace (by omega) ?_
  · obtain ⟨row, hrow, habsorbed, hplace'⟩ := h.exists_absorbed hr'
    refine ⟨row, hrow, ⟨habsorbed, ?_⟩, hplace'⟩
    rintro rfl
    have hlt := place_lt hplace'
    have hneeded : set.needed false = 32 := rfl
    rcases place_eq_some.mp hplace' with ⟨-, -, rfl⟩ | ⟨-, hroom, rfl⟩ <;> omega
  · rw [Nat.sub_eq_zero_of_le (Nat.le_of_lt_succ honce), List.replicate_zero, List.append_nil]
    have hle := card_filter_ne_le set rows places other
    have hleft := card_left_le_of_places h
    refine exists_waits_of_code (fun row hrow => ?_) ?_
      (le_trans (Nat.le_add_right _ _) hother) (by omega)
    · exact hrows row (List.mem_filter.mp hrow).1
    · exact List.mem_filter.mpr ⟨hmemOther, by simp⟩

/-- One of the first 32 data shreds is in the batch or is not there, unless the
batch has the places of 32 code shreds and all of them are. -/
theorem exists_missing (h : set.Usual rows places)
    (hnot : ¬ (places = Finset.Ico NUM_DATA_SHREDS (NUM_DATA_SHREDS + NUM_CODE_SHREDS) ∧
      ∀ row < NUM_DATA_SHREDS, row ∈ rows)) :
    ∃ missing < NUM_DATA_SHREDS, missing ∈ places ∨ missing ∉ rows := by
  by_contra hnone
  push Not at hnone
  refine hnot ⟨?_, fun row hlt => (hnone row hlt).2⟩
  refine Finset.eq_of_subset_of_card_le (fun r hr => ?_) ?_
  · obtain ⟨row, -, -, hplace⟩ := h.exists_absorbed hr
    refine Finset.mem_Ico.mpr ⟨?_, place_lt hplace⟩
    by_contra hlt
    exact (hnone r (Nat.not_le.mp hlt)).1 hr
  · rw [h.card, Nat.card_Ico, Nat.add_sub_cancel_left]
    exact le_rfl

/-- Data shreds that are left without one of the first 32. -/
theorem card_placesOf_leftBehind_lt_of_missing (hlast : set.num_data ≤ last)
    (hdatas : ∀ row ∈ set.leftBehind rows places last, row < set.num_data) {missing : ℕ}
    (hlt : missing < NUM_DATA_SHREDS) (hmissing : missing ∈ places ∨ missing ∉ rows) :
    (set.placesOf false (set.leftBehind rows places last)).card < NUM_DATA_SHREDS := by
  have hsub : set.placesOf false (set.leftBehind rows places last) ⊆
      (Finset.range NUM_DATA_SHREDS).erase missing := by
    intro r hr
    obtain ⟨hrow, hlt'⟩ := mem_of_mem_placesOf_data hdatas hr
    have hdata := hdatas r hrow
    refine Finset.mem_erase.mpr ⟨?_, Finset.mem_range.mpr hlt'⟩
    rintro rfl
    rcases mem_leftBehind hrow with ⟨hmem, hleft⟩ | ⟨rfl, -⟩
    · exact hleft (absorbed_of_opened hdata (.inl (hmissing.resolve_right (not_not.mpr hmem))))
    · omega
  have hcard := Finset.card_le_card hsub
  rw [Finset.card_erase_of_mem (Finset.mem_range.mpr hlt), Finset.card_range] at hcard
  exact lt_of_le_of_lt hcard (Nat.sub_lt (by decide) (by decide))

/-- Behind the first 32 data shreds no others have a place. -/
theorem placesOf_leftBehind_subset
    (hdatas : ∀ row ∈ set.leftBehind rows (Finset.range NUM_DATA_SHREDS) last,
      row < set.num_data) :
    set.placesOf false (set.leftBehind rows (Finset.range NUM_DATA_SHREDS) last) ⊆ {last} := by
  intro r hr
  obtain ⟨hrow, hlt⟩ := mem_of_mem_placesOf_data hdatas hr
  rcases mem_leftBehind hrow with ⟨-, hleft⟩ | ⟨rfl, -⟩
  · exact absurd (absorbed_of_opened (hdatas r hrow) (.inl (Finset.mem_range.mpr hlt))) hleft
  · exact Finset.mem_singleton_self r

/-- With more than 32 data shreds, a batch of the default dimensions that
cannot be cut up leaves rows that wait, unless it leaves the data. -/
theorem usedUp_of_usual_many (hmany : NUM_DATA_SHREDS < set.num_data)
    (hrep : set.num_data ≠ 33 ∨ rows.Nodup) (hrows : set.RowsOf rows) (h : set.Usual rows places)
    (hcut : set.cutUsual places = none) (hnot : ¬ set.LeavesData rows places) :
    set.UsedUp rows := by
  by_cases hall : places = Finset.Ico NUM_DATA_SHREDS (NUM_DATA_SHREDS + NUM_CODE_SHREDS) ∧
      ∀ row < NUM_DATA_SHREDS, row ∈ rows
  · exact usedUp_of_code hmany (fun h33 => hnot ⟨hall.1, hall.2, .inl h33⟩) hrows h hcut hall.1
      fun hcount => hnot ⟨hall.1, hall.2, .inr hcount⟩
  obtain ⟨first, hfirst, hdata, hopened⟩ := h.opened
  have htaken := absorbed_of_opened hdata hopened
  by_cases hcode : ∃ r ∈ places, NUM_DATA_SHREDS ≤ r
  · -- a code shred comes last; when only data shreds are left, one of 32 is not among them
    obtain ⟨r, hr, hle⟩ := hcode
    obtain ⟨last, hlast, htakenLast, hplace⟩ := h.exists_absorbed hr
    have hlastCode := code_of_place hle hplace
    obtain ⟨missing, hlt, hmissing⟩ := exists_missing h hall
    exact h.usedUp hcut hfirst hdata htaken hlast htakenLast hplace (by omega)
      (exists_waits_codeFirst (rowsOf_leftBehind hrows hlast)
        (card_leftBehind_lt hmany hrep h last) fun hdatas =>
          card_placesOf_leftBehind_lt_of_missing (by omega) hdatas hlt hmissing)
  · -- the first 32 data shreds: another of them comes last
    push Not at hcode
    obtain ⟨r, hr, hne⟩ := Finset.exists_mem_ne (by rw [h.card]; decide : 1 < places.card) first
    obtain ⟨last, hlast, htakenLast, hplace⟩ := h.exists_absorbed hr
    have hother : first ≠ last := by
      rintro rfl
      exact hne (place_data hdata hplace).1
    obtain rfl : places = Finset.range NUM_DATA_SHREDS := by
      refine Finset.eq_of_subset_of_card_le (fun r' hr' => ?_) ?_
      · exact Finset.mem_range.mpr (hcode r' hr')
      · rw [h.card, Finset.card_range]
    refine h.usedUp hcut hfirst hdata htaken hlast htakenLast hplace hother
      (exists_waits_codeFirst (rowsOf_leftBehind hrows hlast)
        (card_leftBehind_lt hmany hrep h last) fun hdatas => ?_)
    have hcard := Finset.card_le_card (placesOf_leftBehind_subset hdatas)
    rw [Finset.card_singleton] at hcard
    exact lt_of_le_of_lt hcard (by decide)

end LeftBehind

end EncodedSet

end Sg32
