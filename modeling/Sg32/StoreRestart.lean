/-
The store after a restart (`flat_file_store.rs`).

Opening a directory finds, for each slot, the last listed file that names it;
a directory that only the store wrote to has one such file.

* `lookup_new` — what the index of an opened store holds;
* `reopened_sameAnswers` — a store that is opened again after successful
  saves answers like the one that made them;
* `saveSlot_notNoticed_iff` — when a failed save is not noticed.
-/
import Mathlib.Data.List.Induction
import Sg32.FlatFileStore
import Sg32.Foundation.Panic

namespace Sg32

namespace FlatFileStore

/-! ### Opened stores -/

/-- Two stores over two directories answer alike. -/
structure SameAnswers (store : FlatFileStore) (disk : Disk) (store' : FlatFileStore)
    (disk' : Disk) : Prop where
  hasSlot : ∀ slot, store'.hasSlot slot = store.hasSlot slot
  latestSlot : store'.latestSlot = store.latestSlot
  loadSlot : ∀ slot, store'.loadSlot disk' slot = store.loadSlot disk slot

theorem mem_keys_iff_hasSlot {store : FlatFileStore} {slot : UInt64} :
    slot ∈ store.index.keys ↔ store.hasSlot slot = true := AList.lookup_isSome.symm

theorem latestSlot_eq_some_iff {store : FlatFileStore} {slot : UInt64} :
    store.latestSlot = some slot ↔
      store.hasSlot slot = true ∧ ∀ slot', store.hasSlot slot' = true → slot' ≤ slot := by
  rw [latestSlot, List.max?_eq_some_iff]
  simp only [mem_keys_iff_hasSlot]

theorem latestSlot_congr {store store' : FlatFileStore}
    (h : ∀ slot, store'.hasSlot slot = store.hasSlot slot) :
    store'.latestSlot = store.latestSlot := by
  refine Option.ext fun slot => ?_
  rw [latestSlot_eq_some_iff, latestSlot_eq_some_iff]
  simp only [h]

theorem new_append (disk : Disk) (readDir : List FileName) (path : FileName) :
    new disk (readDir ++ [path]) =
      (new disk readDir).bind fun store => openEntry disk store path := by
  rw [new, new, Rust.foldlM_concat]
  rfl

/-- A directory whose listed files are there can be opened. -/
theorem exists_new {disk : Disk} {readDir : List FileName} (h : ∀ path ∈ readDir, path ∈ disk) :
    ∃ store, new disk readDir = some store := by
  induction readDir using List.reverseRecOn with
  | nil => exact ⟨empty, rfl⟩
  | append_singleton readDir path ih =>
    obtain ⟨store, hstore⟩ := ih fun path' hpath' => h path' (List.mem_append_left _ hpath')
    obtain ⟨contents, hcontents⟩ := Option.isSome_iff_exists.mp
      (AList.lookup_isSome.mpr (h path (by simp)))
    rw [new_append, hstore, Option.bind_some, openEntry]
    cases slotOfFile path with
    | none => exact ⟨store, rfl⟩
    | some slot => exact ⟨_, by rw [hcontents]; rfl⟩

/-- The last listed file that names a slot. -/
def lastFile (readDir : List FileName) (slot : UInt64) : Option FileName :=
  (readDir.filter fun path => slotOfFile path = some slot).getLast?

/-- **What an opened store holds**: for each slot, the last listed file. -/
theorem lookup_new {disk : Disk} {readDir : List FileName} {store : FlatFileStore}
    (h : new disk readDir = some store) (slot : UInt64) :
    store.index.lookup slot =
      (lastFile readDir slot).map fun path => foundInfo path ((disk.lookup path).getD []) := by
  induction readDir using List.reverseRecOn generalizing store with
  | nil =>
    cases h
    rfl
  | append_singleton readDir path ih =>
    rw [new_append] at h
    obtain ⟨before, hbefore, hentry⟩ := Option.bind_eq_some_iff.mp h
    have hlookup := ih hbefore
    rw [lastFile, List.filter_append]
    by_cases hslot : slotOfFile path = some slot
    · -- the new entry replaces what was found before
      rw [openEntry, hslot] at hentry
      obtain ⟨contents, hcontents, hinsert⟩ := Option.bind_eq_some_iff.mp hentry
      rw [← Option.some.inj hinsert, List.filter_cons_of_pos (by simp [hslot]), List.filter_nil,
        List.getLast?_concat, AList.lookup_insert, Option.map_some, hcontents, Option.getD_some]
    · rw [List.filter_cons_of_neg (by simp [hslot]), List.filter_nil, List.append_nil,
        ← lastFile, ← hlookup]
      rw [openEntry] at hentry
      cases hfile : slotOfFile path with
      | none =>
        rw [hfile] at hentry
        rw [Option.some.inj hentry]
      | some slot' =>
        rw [hfile] at hentry hslot
        obtain ⟨contents, -, hinsert⟩ := Option.bind_eq_some_iff.mp hentry
        rw [← Option.some.inj hinsert]
        exact AList.lookup_insert_ne fun heq => hslot (by rw [heq])

/-- What an opened store answers. -/
theorem hasSlot_new {disk : Disk} {readDir : List FileName} {store : FlatFileStore}
    (h : new disk readDir = some store) (slot : UInt64) :
    store.hasSlot slot = (lastFile readDir slot).isSome := by
  rw [hasSlot, lookup_new h, Option.isSome_map]

theorem loadSlot_new {disk : Disk} {readDir : List FileName} {store : FlatFileStore}
    (h : new disk readDir = some store) (slot : UInt64) :
    store.loadSlot disk slot = (lastFile readDir slot).bind disk.lookup := by
  rw [loadSlot, lookup_new h]
  cases lastFile readDir slot <;> rfl

theorem slotOfFile_of_lastFile {readDir : List FileName} {slot : UInt64} {path : FileName}
    (h : lastFile readDir slot = some path) : path ∈ readDir ∧ slotOfFile path = some slot := by
  obtain ⟨hmem, hslot⟩ := List.mem_filter.mp (List.mem_of_getLast? h)
  exact ⟨hmem, of_decide_eq_true hslot⟩

theorem lastFile_eq_none_iff {readDir : List FileName} {slot : UInt64} :
    lastFile readDir slot = none ↔ ∀ path ∈ readDir, slotOfFile path ≠ some slot := by
  rw [lastFile, List.getLast?_eq_none_iff, List.filter_eq_nil_iff]
  simp only [decide_eq_true_eq, ne_eq]

/-! ### After successful saves -/

/-- The store and the directory after successful saves into a directory that
was empty; the last save comes first. -/
inductive Saved : List (UInt64 × Bytes) → FlatFileStore → Disk → Prop
  | opened {store : FlatFileStore} : new ∅ [] = some store → Saved [] store ∅
  | saved {saves : List (UInt64 × Bytes)} {store store' : FlatFileStore} {disk disk' : Disk}
      {slot : UInt64} {entries : Bytes} {dataWrite metaWrite : WriteOutcome} :
      Saved saves store disk →
      store.saveSlot disk slot entries dataWrite metaWrite = (store', disk', true) →
      Saved ((slot, entries) :: saves) store' disk'

/-- Index and directory agree with the saves: a slot has the file of its last
save, and no other file names it. -/
structure InSync (saves : List (UInt64 × Bytes)) (store : FlatFileStore) (disk : Disk) :
    Prop where
  named : ∀ path ∈ disk, ∀ slot, slotOfFile path = some slot → path = dataPath slot
  contents : ∀ slot, disk.lookup (dataPath slot) = saves.lookup slot
  index : ∀ slot, store.index.lookup slot =
    (saves.lookup slot).map fun entries => fileInfo slot entries.length

theorem inSync_empty {store : FlatFileStore} (hnew : new ∅ [] = some store) :
    InSync [] store ∅ := by
  obtain rfl := Option.some.inj hnew
  refine ⟨fun path hpath => absurd hpath (AList.notMem_empty path), fun slot => ?_, fun slot => ?_⟩
  · exact AList.lookup_empty _
  · exact AList.lookup_empty _

/-- A save keeps index and directory together. -/
theorem InSync.save {saves : List (UInt64 × Bytes)} {store store' : FlatFileStore}
    {disk disk' : Disk} (h : InSync saves store disk) {slot : UInt64} {entries : Bytes}
    {dataWrite metaWrite : WriteOutcome}
    (hsave : store.saveSlot disk slot entries dataWrite metaWrite = (store', disk', true)) :
    InSync ((slot, entries) :: saves) store' disk' := by
  rcases saveSlot_cases store disk slot entries dataWrite metaWrite with
    ⟨disk'', hfailed⟩ | ⟨-, -, hwritten⟩
  · rw [hfailed] at hsave
    cases hsave
  rw [hwritten] at hsave
  obtain ⟨rfl, rfl⟩ : _ = store' ∧ _ = disk' := by
    simpa using hsave
  refine ⟨fun path hpath slot' hslot' => ?_, fun slot' => ?_, fun slot' => ?_⟩
  · -- of the two files written, the second names no slot
    simp only [AList.mem_insert] at hpath
    rcases hpath with rfl | rfl | hpath
    · rw [slotOfFile_metaPath] at hslot'
      cases hslot'
    · rw [slotOfFile_dataPath] at hslot'
      rw [Option.some.inj hslot']
    · exact h.named path hpath slot' hslot'
  · have hmeta : dataPath slot' ≠ metaPath slot := fun heq =>
      metaPath_ne_dataPath slot slot' heq.symm
    rw [AList.lookup_insert_ne hmeta, List.lookup_cons]
    by_cases hslot : slot' = slot
    · subst hslot
      rw [AList.lookup_insert, beq_self_eq_true]
    · rw [AList.lookup_insert_ne fun heq => hslot (dataPath_injective heq), h.contents,
        beq_false_of_ne hslot]
  · show AList.lookup slot' (AList.insert _ _ _) = _
    rw [List.lookup_cons]
    by_cases hslot : slot' = slot
    · subst hslot
      rw [AList.lookup_insert, beq_self_eq_true]
      rfl
    · rw [AList.lookup_insert_ne hslot, h.index, beq_false_of_ne hslot]

/-- **Saves keep index and directory together.** -/
theorem Saved.inSync {saves : List (UInt64 × Bytes)} {store : FlatFileStore} {disk : Disk}
    (h : Saved saves store disk) : InSync saves store disk := by
  induction h with
  | opened hnew => exact inSync_empty hnew
  | saved _ hsave ih => exact ih.save hsave

theorem lastFile_of_inSync {saves : List (UInt64 × Bytes)} {store : FlatFileStore} {disk : Disk}
    (h : InSync saves store disk) {readDir : List FileName} (hlist : readDir.Perm disk.keys)
    (slot : UInt64) : lastFile readDir slot = (saves.lookup slot).map fun _ => dataPath slot := by
  have hmem : ∀ path, path ∈ readDir ↔ path ∈ disk := fun path => hlist.mem_iff
  cases hsaves : saves.lookup slot with
  | none =>
    rw [Option.map_none, lastFile_eq_none_iff]
    intro path hpath hslot
    -- the file would be the one of the slot, which is not there
    have hpath' := (hmem path).mp hpath
    rw [h.named path hpath' slot hslot, ← AList.lookup_isSome, h.contents, hsaves] at hpath'
    cases hpath'
  | some entries =>
    have hin : dataPath slot ∈ readDir := by
      rw [hmem, ← AList.lookup_isSome, h.contents, hsaves, Option.isSome_some]
    cases hlast : lastFile readDir slot with
    | none => exact absurd (slotOfFile_dataPath slot) (lastFile_eq_none_iff.mp hlast _ hin)
    | some path =>
      obtain ⟨hpath, hslot⟩ := slotOfFile_of_lastFile hlast
      rw [h.named path ((hmem path).mp hpath) slot hslot]
      rfl

theorem loadSlot_of_inSync {saves : List (UInt64 × Bytes)} {store : FlatFileStore} {disk : Disk}
    (h : InSync saves store disk) (slot : UInt64) :
    store.loadSlot disk slot = saves.lookup slot := by
  rw [loadSlot, h.index]
  cases hsaves : saves.lookup slot with
  | none => rfl
  | some entries =>
    show disk.lookup (dataPath slot) = some entries
    rw [h.contents, hsaves]

theorem hasSlot_of_inSync {saves : List (UInt64 × Bytes)} {store : FlatFileStore} {disk : Disk}
    (h : InSync saves store disk) (slot : UInt64) :
    store.hasSlot slot = (saves.lookup slot).isSome := by
  rw [hasSlot, h.index, Option.isSome_map]

/-- An index that agrees with its directory is found again. -/
theorem exists_new_of_inSync {saves : List (UInt64 × Bytes)} {store : FlatFileStore} {disk : Disk}
    (h : InSync saves store disk) {readDir : List FileName} (hlist : readDir.Perm disk.keys) :
    ∃ store', new disk readDir = some store' ∧ SameAnswers store disk store' disk := by
  obtain ⟨store', hstore'⟩ := exists_new fun path hpath => hlist.mem_iff.mp hpath
  have hhas : ∀ slot, store'.hasSlot slot = store.hasSlot slot := by
    intro slot
    rw [hasSlot_new hstore', lastFile_of_inSync h hlist, hasSlot_of_inSync h, Option.isSome_map]
  refine ⟨store', hstore', hhas, latestSlot_congr hhas, fun slot => ?_⟩
  rw [loadSlot_new hstore', lastFile_of_inSync h hlist, loadSlot_of_inSync h]
  cases hsaves : saves.lookup slot with
  | none => rfl
  | some entries =>
    show disk.lookup (dataPath slot) = some entries
    rw [h.contents, hsaves]

/-- The index that is found agrees with the directory as the old one did. -/
theorem InSync.reopen {saves : List (UInt64 × Bytes)} {store store' : FlatFileStore} {disk : Disk}
    (h : InSync saves store disk) {readDir : List FileName} (hlist : readDir.Perm disk.keys)
    (hnew : new disk readDir = some store') : InSync saves store' disk where
  named := h.named
  contents := h.contents
  index slot := by
    rw [lookup_new hnew, lastFile_of_inSync h hlist]
    cases hsaves : saves.lookup slot with
    | none => rfl
    | some entries =>
      rw [Option.map_some, Option.map_some, h.contents, hsaves]
      rfl

/-- **The store survives a restart**: a store that is opened again after
successful saves answers like the one that made them, in whatever order the
directory is listed, and a slot holds what was saved for it last. -/
theorem reopened_sameAnswers {saves : List (UInt64 × Bytes)} {store : FlatFileStore}
    {disk : Disk} (h : Saved saves store disk) {readDir : List FileName}
    (hlist : readDir.Perm disk.keys) :
    ∃ store', new disk readDir = some store' ∧ SameAnswers store disk store' disk ∧
      ∀ slot, store.loadSlot disk slot = saves.lookup slot := by
  obtain ⟨store', hstore', hsame⟩ := exists_new_of_inSync h.inSync hlist
  exact ⟨store', hstore', hsame, loadSlot_of_inSync h.inSync⟩

/-- Slot 5, then a slot of eleven digits, then slot 5 once more. -/
theorem reopened_sameAnswers_sample :
    let first := empty.saveSlot ∅ 5 [1, 2] .written .written
    let second := first.1.saveSlot first.2.1 12345678901 [3] .written .written
    let third := second.1.saveSlot second.2.1 5 [4] .written .written
    ∃ store', new third.2.1 third.2.1.keys = some store' ∧
      SameAnswers third.1 third.2.1 store' third.2.1 ∧
      ∀ slot, third.1.loadSlot third.2.1 slot =
        [((5 : UInt64), [(4 : UInt8)]), (12345678901, [3]), (5, [1, 2])].lookup slot := by
  intro first second third
  have hfirst : Saved [(5, [1, 2])] first.1 first.2.1 :=
    .saved (.opened rfl)
      (rfl : empty.saveSlot ∅ 5 [1, 2] .written .written = (first.1, first.2.1, true))
  have hsecond : Saved [(12345678901, [3]), (5, [1, 2])] second.1 second.2.1 :=
    .saved hfirst (rfl : first.1.saveSlot first.2.1 12345678901 [3] .written .written =
      (second.1, second.2.1, true))
  have hthird : Saved [(5, [4]), (12345678901, [3]), (5, [1, 2])] third.1 third.2.1 :=
    .saved hsecond (rfl : second.1.saveSlot second.2.1 5 [4] .written .written =
      (third.1, third.2.1, true))
  exact reopened_sameAnswers hthird (List.Perm.refl _)

/-! ### Failed saves -/

/-- A store with the directory that it was opened over: every block of its
index is a data file that is there. -/
structure OpenStore where
  store : FlatFileStore
  disk : Disk
  indexed : ∀ slot info, store.index.lookup slot = some info →
    info.data_path.extension = "dat" ∧ info.data_path ∈ disk

theorem extension_of_slotOfFile {path : FileName} {slot : UInt64}
    (h : slotOfFile path = some slot) : path.extension = "dat" := by
  rw [slotOfFile] at h
  split_ifs at h with hext
  exact hext

/-- `FlatFileStore::new` opens a store. -/
def OpenStore.ofNew {disk : Disk} {readDir : List FileName} {store : FlatFileStore}
    (h : new disk readDir = some store) (hlist : readDir.Perm disk.keys) : OpenStore where
  store := store
  disk := disk
  indexed slot info hinfo := by
    rw [lookup_new h] at hinfo
    obtain ⟨path, hpath, rfl⟩ := Option.map_eq_some_iff.mp hinfo
    obtain ⟨hmem, hslot⟩ := slotOfFile_of_lastFile hpath
    exact ⟨extension_of_slotOfFile hslot, hlist.mem_iff.mp hmem⟩

/-- No file goes away. -/
theorem mem_saveSlot {store : FlatFileStore} {disk : Disk} {slot : UInt64} {entries : Bytes}
    {dataWrite metaWrite : WriteOutcome} {path : FileName} (h : path ∈ disk) :
    path ∈ (store.saveSlot disk slot entries dataWrite metaWrite).2.1 := by
  cases dataWrite with
  | openFailed => exact h
  | writeFailed count => exact (AList.mem_insert _).mpr (.inr h)
  | written =>
    have hdata : path ∈ disk.insert (dataPath slot) entries := (AList.mem_insert _).mpr (.inr h)
    cases metaWrite with
    | openFailed => exact hdata
    | writeFailed count => exact (AList.mem_insert _).mpr (.inr hdata)
    | written => exact (AList.mem_insert _).mpr (.inr hdata)

/-- `save_slot` keeps it open. -/
def OpenStore.saveSlot (state : OpenStore) (slot : UInt64) (entries : Bytes)
    (dataWrite metaWrite : WriteOutcome) : OpenStore where
  store := (state.store.saveSlot state.disk slot entries dataWrite metaWrite).1
  disk := (state.store.saveSlot state.disk slot entries dataWrite metaWrite).2.1
  indexed slot' info hinfo := by
    rcases saveSlot_cases state.store state.disk slot entries dataWrite metaWrite with
      ⟨disk', hsave⟩ | ⟨-, -, hsave⟩
    · have hstore := congrArg Prod.fst hsave
      rw [hstore] at hinfo
      obtain ⟨hext, hmem⟩ := state.indexed slot' info hinfo
      exact ⟨hext, mem_saveSlot hmem⟩
    · rw [hsave] at hinfo ⊢
      by_cases hslot : slot' = slot
      · subst hslot
        obtain rfl := Option.some.inj ((AList.lookup_insert _).symm.trans hinfo)
        exact ⟨rfl, (AList.mem_insert _).mpr (.inr ((AList.mem_insert _).mpr (.inl rfl)))⟩
      · obtain ⟨hext, hmem⟩ :=
          state.indexed slot' info ((AList.lookup_insert_ne hslot).symm.trans hinfo)
        exact ⟨hext, (AList.mem_insert _).mpr (.inr ((AList.mem_insert _).mpr (.inr hmem)))⟩

/-- What a write leaves in its file, when it opens it. -/
def leftBy (contents : Bytes) : WriteOutcome → Option Bytes
  | .written => some contents
  | .openFailed => none
  | .writeFailed count => some (contents.take count)

/-- A failed save answers as if it had not been made, in the live store and in
one that is opened over the same directory; `readDir` is a listing of the
directory after the save, the files that are new left out of it before. -/
structure NotNoticed (store : FlatFileStore) (disk : Disk) (store' : FlatFileStore)
    (disk' : Disk) : Prop where
  live : SameAnswers store disk store' disk'
  reopened : ∀ readDir : List FileName, readDir.Perm disk'.keys →
    ∃ opened opened', new disk (readDir.filter (· ∈ disk)) = some opened ∧
      new disk' readDir = some opened' ∧ SameAnswers opened disk opened' disk'

/-- What is left in the file of the slot was there before: in this file, or, if
there was none, in the files that name the slot in another way. -/
def HeldBefore (disk : Disk) (slot : UInt64) (left : Bytes) : Prop :=
  disk.lookup (dataPath slot) = some left ∨
    dataPath slot ∉ disk ∧ (∃ path ∈ disk, slotOfFile path = some slot) ∧
      ∀ path contents, slotOfFile path = some slot → disk.lookup path = some contents →
        contents = left

/-- The directory after a failed save: `left` is in the file of the slot, the
other data files are as they were. -/
structure LeftIn (slot : UInt64) (left : Bytes) (disk disk' : Disk) : Prop where
  left : disk'.lookup (dataPath slot) = some left
  others : ∀ path, path.extension = "dat" → path ≠ dataPath slot →
    disk'.lookup path = disk.lookup path

theorem ne_metaPath {path : FileName} (hext : path.extension = "dat") (slot : UInt64) :
    path ≠ metaPath slot := by
  rintro rfl
  have hmeta : "meta" = "dat" := hext
  exact absurd hmeta (by decide)

/-- How a save fails. -/
theorem saveSlot_failed {store : FlatFileStore} {disk : Disk} {slot : UInt64} {entries : Bytes}
    {dataWrite metaWrite : WriteOutcome}
    (hfailed : (store.saveSlot disk slot entries dataWrite metaWrite).2.2 = false) :
    (store.saveSlot disk slot entries dataWrite metaWrite).1 = store ∧
      match leftBy entries dataWrite with
      | none => (store.saveSlot disk slot entries dataWrite metaWrite).2.1 = disk
      | some left =>
        LeftIn slot left disk (store.saveSlot disk slot entries dataWrite metaWrite).2.1 := by
  have hother : ∀ path : FileName, path.extension = "dat" → path ≠ dataPath slot →
      (store.saveSlot disk slot entries dataWrite metaWrite).2.1.lookup path =
        disk.lookup path := fun path hext hne =>
    lookup_saveSlot_ne store disk slot entries dataWrite metaWrite hne (ne_metaPath hext slot)
  cases dataWrite with
  | openFailed => exact ⟨rfl, rfl⟩
  | writeFailed count => exact ⟨rfl, AList.lookup_insert _, hother⟩
  | written =>
    cases metaWrite with
    | openFailed => exact ⟨rfl, AList.lookup_insert _, hother⟩
    | writeFailed count =>
      refine ⟨rfl, ?_, hother⟩
      exact (AList.lookup_insert_ne (ne_metaPath rfl slot)).trans (AList.lookup_insert _)
    | written => cases hfailed

variable {disk disk' : Disk} {slot : UInt64} {left : Bytes}

theorem LeftIn.mem_iff (h : LeftIn slot left disk disk') {path : FileName}
    (hext : path.extension = "dat") (hne : path ≠ dataPath slot) : path ∈ disk' ↔ path ∈ disk := by
  rw [← AList.lookup_isSome, ← AList.lookup_isSome, h.others path hext hne]

theorem LeftIn.dataPath_mem (h : LeftIn slot left disk disk') : dataPath slot ∈ disk' := by
  rw [← AList.lookup_isSome, h.left]
  rfl

/-- The files of a slot, listed before and after. -/
theorem filter_filter_mem {readDir : List FileName} {slot' : UInt64}
    (h : ∀ path ∈ readDir, slotOfFile path = some slot' → path ∈ disk) :
    lastFile (readDir.filter (· ∈ disk)) slot' = lastFile readDir slot' := by
  rw [lastFile, lastFile, List.filter_filter]
  refine congrArg List.getLast? (List.filter_congr fun path hpath => ?_)
  by_cases hslot : slotOfFile path = some slot'
  · simp [hslot, h path hpath hslot]
  · simp [hslot]

theorem lastFile_concat {readDir : List FileName} {path : FileName}
    (h : slotOfFile path = some slot) : lastFile (readDir ++ [path]) slot = some path := by
  rw [lastFile, List.filter_append, List.filter_cons_of_pos (by simp [h]), List.filter_nil,
    List.getLast?_concat]

theorem exists_lastFile {readDir : List FileName} {path : FileName} (hmem : path ∈ readDir)
    (hslot : slotOfFile path = some slot) : ∃ last, lastFile readDir slot = some last := by
  cases hlast : lastFile readDir slot with
  | none => exact absurd hslot (lastFile_eq_none_iff.mp hlast path hmem)
  | some last => exact ⟨last, rfl⟩

/-- The last file of a slot, before and after, when the slot's own file is new:
all that name the slot hold the same. -/
theorem LeftIn.lastFile_of_new (h : LeftIn slot left disk disk') {path : FileName}
    (hpath : path ∈ disk) (hslot : slotOfFile path = some slot)
    (hall : ∀ path contents, slotOfFile path = some slot → disk.lookup path = some contents →
      contents = left)
    (hnew : dataPath slot ∉ disk) {readDir : List FileName} (hlist : readDir.Perm disk'.keys) :
    (lastFile (readDir.filter (· ∈ disk)) slot).isSome = (lastFile readDir slot).isSome ∧
      (lastFile (readDir.filter (· ∈ disk)) slot).bind disk.lookup =
        (lastFile readDir slot).bind disk'.lookup := by
  have hold : ∀ path', path' ∈ disk → slotOfFile path' = some slot →
      disk.lookup path' = some left := by
    intro path' hpath' hslot'
    obtain ⟨contents, hcontents⟩ := Option.isSome_iff_exists.mp (AList.lookup_isSome.mpr hpath')
    rw [hcontents, hall path' contents hslot' hcontents]
  have hne : path ≠ dataPath slot := by
    rintro rfl
    exact hnew hpath
  have hin : path ∈ readDir :=
    hlist.mem_iff.mpr ((h.mem_iff (extension_of_slotOfFile hslot) hne).mpr hpath)
  have hin' : path ∈ readDir.filter (· ∈ disk) := List.mem_filter.mpr ⟨hin, decide_eq_true hpath⟩
  obtain ⟨last, hlast⟩ := exists_lastFile hin' hslot
  obtain ⟨last', hlast'⟩ := exists_lastFile hin hslot
  obtain ⟨hlastMem, hlastSlot⟩ := slotOfFile_of_lastFile hlast
  obtain ⟨hlastMem', hlastSlot'⟩ := slotOfFile_of_lastFile hlast'
  have hbefore := hold last (of_decide_eq_true (List.mem_filter.mp hlastMem).2) hlastSlot
  have hafter : disk'.lookup last' = some left := by
    by_cases heq : last' = dataPath slot
    · rw [heq, h.left]
    · have hext := extension_of_slotOfFile hlastSlot'
      have hdisk := (h.mem_iff hext heq).mp (hlist.mem_iff.mp hlastMem')
      rw [h.others last' hext heq, hold last' hdisk hlastSlot']
  rw [hlast, hlast']
  exact ⟨rfl, hbefore.trans hafter.symm⟩

/-- Nothing shows of what was held before: whether a slot has a file, and what
the last listed one holds. -/
theorem LeftIn.lastFile_eq (h : LeftIn slot left disk disk') (hheld : HeldBefore disk slot left)
    {readDir : List FileName} (hlist : readDir.Perm disk'.keys) (slot' : UInt64) :
    (lastFile (readDir.filter (· ∈ disk)) slot').isSome = (lastFile readDir slot').isSome ∧
      (lastFile (readDir.filter (· ∈ disk)) slot').bind disk.lookup =
        (lastFile readDir slot').bind disk'.lookup := by
  by_cases hnew : slot' = slot ∧ dataPath slot ∉ disk
  · obtain ⟨rfl, hnew⟩ := hnew
    rcases hheld with hheld | ⟨-, ⟨path, hpath, hslot⟩, hall⟩
    · exact absurd (AList.lookup_isSome.mp (by rw [hheld]; rfl)) hnew
    · exact h.lastFile_of_new hpath hslot hall hnew hlist
  · -- the files that name the slot are the ones from before
    have hin : ∀ path ∈ readDir, slotOfFile path = some slot' → path ∈ disk := by
      intro path hpath hslot
      by_cases heq : path = dataPath slot
      · subst heq
        rw [slotOfFile_dataPath, Option.some.injEq] at hslot
        exact Decidable.of_not_not fun hnot => hnew ⟨hslot.symm, hnot⟩
      · have hpath' := hlist.mem_iff.mp hpath
        exact (h.mem_iff (extension_of_slotOfFile hslot) heq).mp hpath'
    rw [filter_filter_mem hin]
    refine ⟨rfl, ?_⟩
    rcases hlast : lastFile readDir slot' with _ | path
    · rfl
    · obtain ⟨hpath, hslot⟩ := slotOfFile_of_lastFile hlast
      show disk.lookup path = disk'.lookup path
      by_cases heq : path = dataPath slot
      · subst heq
        rcases hheld with hheld | ⟨hnot, -, -⟩
        · rw [hheld, h.left]
        · exact absurd (hin _ hpath hslot) hnot
      · exact (h.others path (extension_of_slotOfFile hslot) heq).symm

/-- The listings after a failed save, and what was listed before, can be
opened. -/
theorem exists_new_filter {readDir : List FileName} :
    ∃ opened, new disk (readDir.filter (· ∈ disk)) = some opened :=
  exists_new fun _ hpath => of_decide_eq_true (List.mem_filter.mp hpath).2

theorem sameAnswers_of_lastFile {readDir : List FileName} {opened opened' : FlatFileStore}
    (hopened : new disk (readDir.filter (· ∈ disk)) = some opened)
    (hopened' : new disk' readDir = some opened')
    (h : ∀ slot, (lastFile (readDir.filter (· ∈ disk)) slot).isSome =
        (lastFile readDir slot).isSome ∧
      (lastFile (readDir.filter (· ∈ disk)) slot).bind disk.lookup =
        (lastFile readDir slot).bind disk'.lookup) :
    SameAnswers opened disk opened' disk' := by
  have hhas : ∀ slot, opened'.hasSlot slot = opened.hasSlot slot := by
    intro slot
    rw [hasSlot_new hopened, hasSlot_new hopened', (h slot).1]
  refine ⟨hhas, latestSlot_congr hhas, fun slot => ?_⟩
  rw [loadSlot_new hopened, loadSlot_new hopened', (h slot).2]

theorem notNoticed_refl (store : FlatFileStore) (disk : Disk) :
    NotNoticed store disk store disk := by
  refine ⟨⟨fun _ => rfl, rfl, fun _ => rfl⟩, fun readDir hlist => ?_⟩
  obtain ⟨opened, hopened⟩ := exists_new fun path hpath => hlist.mem_iff.mp hpath
  have hall : readDir.filter (· ∈ disk) = readDir :=
    List.filter_eq_self.mpr fun path hpath => decide_eq_true (hlist.mem_iff.mp hpath)
  refine ⟨opened, opened, ?_, hopened, ⟨fun _ => rfl, rfl, fun _ => rfl⟩⟩
  rw [hall, hopened]

/-- A failed save that leaves what was held before is not noticed. -/
theorem OpenStore.notNoticed_of_heldBefore (state : OpenStore)
    (h : LeftIn slot left state.disk disk') (hheld : HeldBefore state.disk slot left) :
    NotNoticed state.store state.disk state.store disk' := by
  refine ⟨⟨fun slot' => rfl, rfl, fun slot' => ?_⟩, fun readDir hlist => ?_⟩
  · rw [loadSlot, loadSlot]
    cases hinfo : state.store.index.lookup slot' with
    | none => rfl
    | some info =>
      obtain ⟨hext, hmem⟩ := state.indexed slot' info hinfo
      show disk'.lookup info.data_path = state.disk.lookup info.data_path
      by_cases heq : info.data_path = dataPath slot
      · rcases hheld with hheld | ⟨hnot, -, -⟩
        · rw [heq, hheld, h.left]
        · exact absurd (heq ▸ hmem) hnot
      · exact h.others _ hext heq
  · obtain ⟨opened, hopened⟩ : ∃ opened, new state.disk (readDir.filter (· ∈ state.disk)) =
        some opened := exists_new_filter
    obtain ⟨opened', hopened'⟩ := exists_new fun path hpath => hlist.mem_iff.mp hpath
    exact ⟨opened, opened', hopened, hopened',
      sameAnswers_of_lastFile hopened hopened' (h.lastFile_eq hheld hlist)⟩

theorem listing_concat {readDir : List FileName} {path : FileName} (h : path ∈ readDir) :
    (readDir.erase path ++ [path]).Perm readDir :=
  List.perm_append_singleton _ _ |>.trans (List.perm_cons_erase h).symm

/-- The last listed file decides what an opened store reads. -/
theorem loadSlot_of_concat {readDir : List FileName} {path : FileName}
    (hslot : slotOfFile path = some slot) {opened : FlatFileStore}
    (h : new disk (readDir ++ [path]) = some opened) :
    opened.loadSlot disk slot = disk.lookup path := by
  rw [loadSlot_new h, lastFile_concat hslot, Option.bind_some]

/-- A failed save that is not noticed leaves what was held before. -/
theorem LeftIn.heldBefore_of_reopened (h : LeftIn slot left disk disk')
    (hreopened : ∀ readDir : List FileName, readDir.Perm disk'.keys →
      ∃ opened opened', new disk (readDir.filter (· ∈ disk)) = some opened ∧
        new disk' readDir = some opened' ∧ SameAnswers opened disk opened' disk') :
    HeldBefore disk slot left := by
  have hfile := slotOfFile_dataPath slot
  have hin : dataPath slot ∈ disk'.keys := h.dataPath_mem
  by_cases hold : dataPath slot ∈ disk
  · -- the file of the slot was there: list it last
    left
    obtain ⟨opened, opened', hopened, hopened', hsame⟩ := hreopened _ (listing_concat hin)
    rw [List.filter_append, List.filter_cons_of_pos (by simp [hold]), List.filter_nil] at hopened
    have hload := hsame.loadSlot slot
    rw [loadSlot_of_concat hfile hopened, loadSlot_of_concat hfile hopened', h.left] at hload
    exact hload.symm
  · refine .inr ⟨hold, ?_, ?_⟩
    · -- the slot is found now, so it was found before
      obtain ⟨opened, opened', hopened, hopened', hsame⟩ := hreopened _ (List.Perm.refl _)
      have hhas := hsame.hasSlot slot
      obtain ⟨last, hlast⟩ := exists_lastFile hin hfile
      rw [hasSlot_new hopened', hasSlot_new hopened, hlast, Option.isSome_some] at hhas
      obtain ⟨path, hpath⟩ := Option.isSome_iff_exists.mp hhas.symm
      obtain ⟨hmem, hslot⟩ := slotOfFile_of_lastFile hpath
      exact ⟨path, of_decide_eq_true (List.mem_filter.mp hmem).2, hslot⟩
    · intro path contents hslot hcontents
      -- list `path` last but one, and the new file after it
      have hmem : path ∈ disk := AList.lookup_isSome.mp (by rw [hcontents]; rfl)
      have hne : path ≠ dataPath slot := by
        rintro rfl
        exact hold hmem
      have hmem' : path ∈ disk'.keys :=
        (h.mem_iff (extension_of_slotOfFile hslot) hne).mpr hmem
      have hlist : ((disk'.keys.erase (dataPath slot)).erase path ++ [path] ++
          [dataPath slot]).Perm disk'.keys :=
        ((listing_concat ((List.mem_erase_of_ne hne).mpr hmem')).append_right _).trans
          (listing_concat hin)
      obtain ⟨opened, opened', hopened, hopened', hsame⟩ := hreopened _ hlist
      rw [List.filter_append, List.filter_append, List.filter_cons_of_pos (by simp [hmem]),
        List.filter_cons_of_neg (by simp [hold]), List.filter_nil, List.append_nil] at hopened
      have hload := hsame.loadSlot slot
      rw [loadSlot_of_concat hslot hopened, loadSlot_of_concat hfile hopened', h.left,
        hcontents] at hload
      exact (Option.some.inj hload).symm

/-- **When a failed save is not noticed**: the file of the block could not be
opened, or what the save left in it was held before. -/
theorem saveSlot_notNoticed_iff (state : OpenStore) {slot : UInt64} {entries : Bytes}
    {dataWrite metaWrite : WriteOutcome}
    (hfailed : (state.store.saveSlot state.disk slot entries dataWrite metaWrite).2.2 = false) :
    NotNoticed state.store state.disk
        (state.store.saveSlot state.disk slot entries dataWrite metaWrite).1
        (state.store.saveSlot state.disk slot entries dataWrite metaWrite).2.1 ↔
      ∀ left, leftBy entries dataWrite = some left → HeldBefore state.disk slot left := by
  obtain ⟨hstore, hdisk⟩ := saveSlot_failed hfailed
  rw [hstore]
  cases hleft : leftBy entries dataWrite with
  | none =>
    rw [hleft] at hdisk
    have hsame : state.disk = (state.store.saveSlot state.disk slot entries dataWrite
      metaWrite).2.1 := hdisk.symm
    rw [← hsame]
    constructor
    · intro _ left heq
      cases heq
    · intro _
      exact notNoticed_refl state.store state.disk
  | some left =>
    rw [hleft] at hdisk
    constructor
    · rintro hnot left' heq
      obtain rfl := Option.some.inj heq
      exact LeftIn.heldBefore_of_reopened hdisk hnot.reopened
    · intro hheld
      exact state.notNoticed_of_heldBefore hdisk (hheld left rfl)

/-- A store that has saved slot 7. -/
def sampleOpen : OpenStore :=
  (OpenStore.ofNew (rfl : new ∅ [] = some empty) (List.Perm.refl _)).saveSlot 7 [1, 2]
    .written .written

theorem saveSlot_notNoticed_sample :
    NotNoticed sampleOpen.store sampleOpen.disk
        (sampleOpen.store.saveSlot sampleOpen.disk 7 [1, 2, 3] (.writeFailed 2) .written).1
        (sampleOpen.store.saveSlot sampleOpen.disk 7 [1, 2, 3] (.writeFailed 2) .written).2.1 ↔
      ∀ left, leftBy [1, 2, 3] (.writeFailed 2) = some left →
        HeldBefore sampleOpen.disk 7 left :=
  saveSlot_notNoticed_iff sampleOpen rfl

/-- The file that describes the block cannot be written, and the block is
another one. -/
theorem saveSlot_noticed :
    ¬ ∀ (state : OpenStore) (slot : UInt64) (entries : Bytes)
        (dataWrite metaWrite : WriteOutcome),
      (state.store.saveSlot state.disk slot entries dataWrite metaWrite).2.2 = false →
        NotNoticed state.store state.disk
          (state.store.saveSlot state.disk slot entries dataWrite metaWrite).1
          (state.store.saveSlot state.disk slot entries dataWrite metaWrite).2.1 := by
  intro h
  have hload := (h sampleOpen 7 [3] .written .openFailed rfl).live.loadSlot 7
  have hafter : (sampleOpen.store.saveSlot sampleOpen.disk 7 [3] .written .openFailed).1.loadSlot
      (sampleOpen.store.saveSlot sampleOpen.disk 7 [3] .written .openFailed).2.1 7 =
        some [3] := by decide
  have hbefore : sampleOpen.store.loadSlot sampleOpen.disk 7 = some [1, 2] := by decide
  rw [hafter, hbefore] at hload
  exact absurd hload (by decide)

end FlatFileStore

end Sg32
