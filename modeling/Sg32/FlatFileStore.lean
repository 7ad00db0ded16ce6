/-
The store of recovered blocks on disk (`flat_file_store.rs`).

A block is written to a file named after its slot, next to a file that
describes it, and an index in memory says which slots were written.  A write
can fail after it has truncated its file, so that its outcome is an input.

* `dataPath_injective` — different slots have different files;
* `slotOfFile_dataPath` — the slot is read back from the name;
* `loadSlot_saveSlot` — a save that succeeds is read back, and changes no
  other slot.
-/
import Sg32.Foundation.Bytes
import Mathlib.Data.List.AList

namespace Sg32

/-- The name of a file in the data directory. -/
structure FileName where
  stem : List Char
  extension : String
  deriving DecidableEq

/-- The data directory: its files and what they hold. -/
abbrev Disk := AList fun _ : FileName => Bytes

/-- How a write to a file ends: a failed one leaves the file as it was, or
truncated to a part of what was to be written. -/
inductive WriteOutcome
  | written
  | openFailed
  | writeFailed (count : ℕ)
  deriving DecidableEq

/-- `fs::write`; `false` is an error. -/
def fsWrite (disk : Disk) (path : FileName) (contents : Bytes) : WriteOutcome → Disk × Bool
  | .written => (disk.insert path contents, true)
  | .openFailed => (disk, false)
  | .writeFailed count => (disk.insert path (contents.take count), false)

structure SlotFileInfo where
  data_path : FileName
  data_size : UInt64
  meta_path : FileName
  deriving DecidableEq

structure FlatFileStore where
  index : AList fun _ : UInt64 => SlotFileInfo

namespace FlatFileStore

/-- The store over a directory without blocks. -/
def empty : FlatFileStore := { index := ∅ }

/-- `format!("slot_{:010}", slot)`: ten digits at least. -/
def slotName (slot : UInt64) : List Char :=
  let digits := Nat.toDigits 10 slot.toNat
  "slot_".toList ++ (List.replicate (10 - digits.length) '0' ++ digits)

def dataPath (slot : UInt64) : FileName := { stem := slotName slot, extension := "dat" }

def metaPath (slot : UInt64) : FileName := { stem := slotName slot, extension := "meta" }

/-- The text of the file that describes a block. -/
def metaText (slot : UInt64) (size : ℕ) : Bytes :=
  ("\x7b \"slot\": " ++ toString slot.toNat ++ ", \"size\": " ++ toString size
    ++ " \x7d").toUTF8.toList

/-- What the index keeps about a block of `size` bytes. -/
def fileInfo (slot : UInt64) (size : ℕ) : SlotFileInfo where
  data_path := dataPath slot
  data_size := .ofNat size
  meta_path := metaPath slot

def hasSlot (store : FlatFileStore) (slot : UInt64) : Bool :=
  (store.index.lookup slot).isSome

def latestSlot (store : FlatFileStore) : Option UInt64 := store.index.keys.max?

def loadSlot (store : FlatFileStore) (disk : Disk) (slot : UInt64) : Option Bytes := do
  let info ← store.index.lookup slot
  disk.lookup info.data_path

/-- The store and the directory after a save, and whether it succeeded. -/
def saveSlot (store : FlatFileStore) (disk : Disk) (slot : UInt64) (entries : Bytes)
    (dataWrite metaWrite : WriteOutcome) : FlatFileStore × Disk × Bool :=
  match fsWrite disk (dataPath slot) entries dataWrite with
  | (disk, false) => (store, disk, false)
  | (disk, true) =>
    match fsWrite disk (metaPath slot) (metaText slot entries.length) metaWrite with
    | (disk, false) => (store, disk, false)
    | (disk, true) =>
      ({ store with index := store.index.insert slot (fileInfo slot entries.length) }, disk, true)

/-! ### Opening a directory -/

/-- The digits of a number, after a part of value `value`. -/
def parseDigits : ℕ → List Char → Option ℕ
  | value, [] => some value
  | value, c :: cs =>
    if c.isDigit ∧ 10 * value + (c.toNat - '0'.toNat) < 2 ^ 64 then
      parseDigits (10 * value + (c.toNat - '0'.toNat)) cs
    else none

/-- A number may have a sign. -/
def dropSign : List Char → List Char
  | [] => []
  | c :: cs => if c = '+' then cs else c :: cs

/-- `text.parse::<u64>()`; zeros may stand in front. -/
def parseU64 (text : List Char) : Option UInt64 :=
  match dropSign text with
  | [] => none
  | digits => (parseDigits 0 digits).map UInt64.ofNat

/-- The slot that the name of a file stands for. -/
def slotOfFile (path : FileName) : Option UInt64 :=
  if path.extension = "dat" then do
    let name ← path.stem.dropPrefix? "slot_".toList
    parseU64 name
  else none

/-- What the index keeps about a file that was found. -/
def foundInfo (path : FileName) (contents : Bytes) : SlotFileInfo where
  data_path := path
  data_size := .ofNat contents.length
  meta_path := { path with extension := "meta" }

/-- One entry of the directory; a file that is not there has no metadata. -/
def openEntry (disk : Disk) (store : FlatFileStore) (path : FileName) : Option FlatFileStore :=
  match slotOfFile path with
  | none => some store
  | some slot => do
    let contents ← disk.lookup path
    some { store with index := store.index.insert slot (foundInfo path contents) }

/-- `FlatFileStore::new` over a directory; `readDir` is the order in which its
files are listed. -/
def new (disk : Disk) (readDir : List FileName) : Option FlatFileStore :=
  readDir.foldlM (openEntry disk) empty

/-! ### Names -/

theorem le_ofDigitChars (cs : List Char) (value : ℕ) : value ≤ Nat.ofDigitChars 10 cs value := by
  rw [Nat.ofDigitChars_eq_ofDigitChars_zero]
  have hpow : 0 < 10 ^ cs.length := Nat.pow_pos (by decide)
  calc value ≤ 10 ^ cs.length * value := Nat.le_mul_of_pos_left value hpow
    _ ≤ 10 ^ cs.length * value + Nat.ofDigitChars 10 cs 0 := Nat.le_add_right _ _

theorem parseDigits_eq_some {cs : List Char} {value : ℕ} (hdigits : ∀ c ∈ cs, c.isDigit)
    (hlt : Nat.ofDigitChars 10 cs value < 2 ^ 64) :
    parseDigits value cs = some (Nat.ofDigitChars 10 cs value) := by
  induction cs generalizing value with
  | nil => rfl
  | cons c cs ih =>
    rw [Nat.ofDigitChars_cons] at hlt ⊢
    rw [parseDigits, if_pos ⟨hdigits c (by simp), (le_ofDigitChars cs _).trans_lt hlt⟩]
    exact ih (fun c' hc' => hdigits c' (List.mem_cons_of_mem c hc')) hlt

/-- The digits of the name of a file. -/
def slotDigits (slot : UInt64) : List Char :=
  List.replicate (10 - (Nat.toDigits 10 slot.toNat).length) '0' ++ Nat.toDigits 10 slot.toNat

theorem isDigit_of_mem_slotDigits {slot : UInt64} {c : Char} (h : c ∈ slotDigits slot) :
    c.isDigit := by
  rcases List.mem_append.mp h with hzero | hdigit
  · rw [List.eq_of_mem_replicate hzero]
    rfl
  · exact Nat.isDigit_of_mem_toDigits (by decide) (by decide) hdigit

theorem ofDigitChars_slotDigits (slot : UInt64) :
    Nat.ofDigitChars 10 (slotDigits slot) 0 = slot.toNat := by
  rw [slotDigits, Nat.ofDigitChars_append, Nat.ofDigitChars_replicate_zero, Nat.mul_zero,
    Nat.ofDigitChars_ten_toDigits]

theorem slotDigits_ne_nil (slot : UInt64) : slotDigits slot ≠ [] := by
  rw [slotDigits, Ne, List.append_eq_nil_iff]
  rintro ⟨-, hnil⟩
  exact Nat.toDigits_ne_nil hnil

theorem dropSign_eq_self {cs : List Char} (hdigits : ∀ c ∈ cs, c.isDigit) : dropSign cs = cs := by
  cases cs with
  | nil => rfl
  | cons c cs =>
    refine if_neg ?_
    rintro rfl
    exact absurd (hdigits '+' (by simp)) (by decide)

/-- **The slot is read back from the padded digits.** -/
theorem parseU64_slotDigits (slot : UInt64) : parseU64 (slotDigits slot) = some slot := by
  have hparse : parseDigits 0 (slotDigits slot) = some (Nat.ofDigitChars 10 (slotDigits slot) 0) :=
    parseDigits_eq_some (fun c hc => isDigit_of_mem_slotDigits hc)
      (by rw [ofDigitChars_slotDigits]; exact slot.toNat_lt)
  rw [ofDigitChars_slotDigits] at hparse
  rw [parseU64, dropSign_eq_self fun c hc => isDigit_of_mem_slotDigits hc]
  cases hdigits : slotDigits slot with
  | nil => exact absurd hdigits (slotDigits_ne_nil slot)
  | cons c cs =>
    rw [hdigits] at hparse
    show (parseDigits 0 (c :: cs)).map UInt64.ofNat = some slot
    rw [hparse, Option.map_some, UInt64.ofNat_toNat]

theorem slotName_eq (slot : UInt64) : slotName slot = "slot_".toList ++ slotDigits slot := rfl

theorem slotOfFile_dataPath (slot : UInt64) : slotOfFile (dataPath slot) = some slot := by
  have hname : List.dropPrefix? (slotName slot) "slot_".toList = some (slotDigits slot) := by
    rw [slotName_eq]
    exact List.dropPrefix?_append_of_beq _ (beq_self_eq_true _)
  rw [slotOfFile, if_pos (show (dataPath slot).extension = "dat" from rfl)]
  show (List.dropPrefix? (slotName slot) "slot_".toList).bind parseU64 = some slot
  rw [hname]
  exact parseU64_slotDigits slot

theorem slotOfFile_metaPath (slot : UInt64) : slotOfFile (metaPath slot) = none := by
  have hext : ¬"meta" = "dat" := by decide
  exact if_neg hext

theorem slotName_injective {slot slot' : UInt64} (h : slotName slot = slotName slot') :
    slot = slot' := by
  have hdigits := List.append_cancel_left h
  -- the number is read back from its digits, whatever zeros stand before them
  have hvalue := congrArg (fun digits => Nat.ofDigitChars 10 digits 0) hdigits
  simp only [Nat.ofDigitChars_append, Nat.ofDigitChars_replicate_zero, Nat.mul_zero,
    Nat.ofDigitChars_ten_toDigits] at hvalue
  exact UInt64.toNat_inj.mp hvalue

theorem dataPath_injective {slot slot' : UInt64} (h : dataPath slot = dataPath slot') :
    slot = slot' := slotName_injective (congrArg FileName.stem h)

theorem metaPath_ne_dataPath (slot slot' : UInt64) : metaPath slot ≠ dataPath slot' := by
  intro h
  have hext : "meta" = "dat" := congrArg FileName.extension h
  exact absurd hext (by decide)

/-! ### Reading back -/

/-- The index names every block by its slot. -/
def WellNamed (store : FlatFileStore) : Prop :=
  ∀ slot info, store.index.lookup slot = some info → info.data_path = dataPath slot

theorem wellNamed_empty : WellNamed empty := by
  intro slot info h
  rw [empty, AList.lookup_empty] at h
  cases h

variable {store : FlatFileStore} {disk : Disk} {slot : UInt64} {entries : Bytes}
  {dataWrite metaWrite : WriteOutcome}

theorem wellNamed_insert (h : WellNamed store) {info : SlotFileInfo}
    (hinfo : info.data_path = dataPath slot) :
    WellNamed { store with index := store.index.insert slot info } := by
  intro slot' info' hlookup
  by_cases hslot : slot' = slot
  · subst hslot
    rw [AList.lookup_insert] at hlookup
    cases hlookup
    exact hinfo
  · rw [AList.lookup_insert_ne hslot] at hlookup
    exact h slot' info' hlookup

/-- A save ends in one of three ways. -/
theorem saveSlot_cases (store : FlatFileStore) (disk : Disk) (slot : UInt64) (entries : Bytes)
    (dataWrite metaWrite : WriteOutcome) :
    (∃ disk', store.saveSlot disk slot entries dataWrite metaWrite = (store, disk', false)) ∨
      (dataWrite = .written ∧ metaWrite = .written ∧
        store.saveSlot disk slot entries dataWrite metaWrite =
          ({ store with index := store.index.insert slot (fileInfo slot entries.length) },
            (disk.insert (dataPath slot) entries).insert (metaPath slot)
              (metaText slot entries.length), true)) := by
  cases dataWrite with
  | openFailed => exact .inl ⟨_, rfl⟩
  | writeFailed count => exact .inl ⟨_, rfl⟩
  | written =>
    cases metaWrite with
    | openFailed => exact .inl ⟨_, rfl⟩
    | writeFailed count => exact .inl ⟨_, rfl⟩
    | written => exact .inr ⟨rfl, rfl, rfl⟩

theorem wellNamed_saveSlot (h : WellNamed store) :
    WellNamed (store.saveSlot disk slot entries dataWrite metaWrite).1 := by
  rcases saveSlot_cases store disk slot entries dataWrite metaWrite with
    ⟨disk', hsave⟩ | ⟨-, -, hsave⟩
  · rw [hsave]
    exact h
  · rw [hsave]
    exact wellNamed_insert h rfl

theorem lookup_fsWrite_ne (disk : Disk) {path path' : FileName} (hne : path' ≠ path)
    (contents : Bytes) (outcome : WriteOutcome) :
    (fsWrite disk path contents outcome).1.lookup path' = disk.lookup path' := by
  cases outcome with
  | written => exact AList.lookup_insert_ne hne
  | openFailed => rfl
  | writeFailed count => exact AList.lookup_insert_ne hne

/-- A save writes two files, whether or not it succeeds. -/
theorem lookup_saveSlot_ne (store : FlatFileStore) (disk : Disk) (slot : UInt64)
    (entries : Bytes) (dataWrite metaWrite : WriteOutcome) {path : FileName}
    (hdata : path ≠ dataPath slot) (hmeta : path ≠ metaPath slot) :
    (store.saveSlot disk slot entries dataWrite metaWrite).2.1.lookup path = disk.lookup path := by
  unfold saveSlot
  have hfirst := lookup_fsWrite_ne disk hdata entries dataWrite
  split
  · rename_i disk' heq
    rwa [heq] at hfirst
  · rename_i disk' heq
    rw [heq] at hfirst
    have hsecond := lookup_fsWrite_ne disk' hmeta (metaText slot entries.length) metaWrite
    split
    · rename_i disk'' heq'
      rw [heq'] at hsecond
      exact hsecond.trans hfirst
    · rename_i disk'' heq'
      rw [heq'] at hsecond
      exact hsecond.trans hfirst

/-- Other slots read as before, whether or not a save succeeds. -/
theorem loadSlot_saveSlot_ne (h : WellNamed store) {slot' : UInt64} (hne : slot' ≠ slot) :
    (store.saveSlot disk slot entries dataWrite metaWrite).1.loadSlot
        (store.saveSlot disk slot entries dataWrite metaWrite).2.1 slot' =
      store.loadSlot disk slot' := by
  have hdata : dataPath slot' ≠ dataPath slot := fun heq => hne (dataPath_injective heq)
  have hfile := lookup_saveSlot_ne store disk slot entries dataWrite metaWrite hdata
    (fun heq => metaPath_ne_dataPath slot slot' heq.symm)
  have hindex : (store.saveSlot disk slot entries dataWrite metaWrite).1.index.lookup slot' =
      store.index.lookup slot' := by
    rcases saveSlot_cases store disk slot entries dataWrite metaWrite with
      ⟨disk', hsave⟩ | ⟨-, -, hsave⟩
    · rw [hsave]
    · rw [hsave]
      exact AList.lookup_insert_ne hne
  rw [loadSlot, loadSlot, hindex]
  cases hlookup : store.index.lookup slot' with
  | none => rfl
  | some info =>
    have hpath := h slot' info hlookup
    show AList.lookup info.data_path _ = AList.lookup info.data_path _
    rw [hpath, hfile]

/-- **A save that succeeds is read back**, and every other slot reads as
before. -/
theorem loadSlot_saveSlot (h : WellNamed store)
    (hsaved : (store.saveSlot disk slot entries dataWrite metaWrite).2.2 = true)
    (slot' : UInt64) :
    (store.saveSlot disk slot entries dataWrite metaWrite).1.loadSlot
        (store.saveSlot disk slot entries dataWrite metaWrite).2.1 slot' =
      if slot' = slot then some entries else store.loadSlot disk slot' := by
  rcases saveSlot_cases store disk slot entries dataWrite metaWrite with
    ⟨disk', hsave⟩ | ⟨-, -, hsave⟩
  · rw [hsave] at hsaved
    cases hsaved
  by_cases hslot : slot' = slot
  · subst hslot
    have hmeta : dataPath slot' ≠ metaPath slot' := fun heq =>
      metaPath_ne_dataPath slot' slot' heq.symm
    rw [hsave]
    simp [loadSlot, fileInfo, AList.lookup_insert_ne hmeta]
  · rw [if_neg hslot]
    exact loadSlot_saveSlot_ne h hslot

end FlatFileStore

end Sg32
