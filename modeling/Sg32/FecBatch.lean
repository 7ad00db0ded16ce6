/-
Forward-error-correction batches (`fec_batch.rs`).

A `FecBatch` collects the shreds of one erasure set, the first payload for
each position, and `tryRecover` rebuilds the data shreds once `num_data`
shreds are present.

* `selectedShreds_eq` — the shreds handed to the decoder: every data shred,
  then code shreds in order of position;
* `tryRecover_returns_iff`, `run_tryRecover_returns_iff` — when recovery panics.
-/
import Sg32.ErasureCode

namespace Sg32

open Rust

structure FecBatch where
  slot : UInt64
  fec_set_index : UInt32
  parent_slot : UInt64
  num_data : ℕ
  num_code : ℕ
  data_shreds : List (Option Bytes)
  code_shreds : List (Option Bytes)
  length_data_shreds : data_shreds.length = num_data
  length_code_shreds : code_shreds.length = num_code
  deriving DecidableEq

namespace FecBatch

def new (slot : UInt64) (fec_set_index : UInt32) (num_data num_code : ℕ) : FecBatch where
  slot := slot
  fec_set_index := fec_set_index
  parent_slot := 0
  num_data := num_data
  num_code := num_code
  data_shreds := List.replicate num_data none
  code_shreds := List.replicate num_code none
  length_data_shreds := List.length_replicate
  length_code_shreds := List.length_replicate

/-- Fill an empty position below `count`; `false` when it is out of range or
already taken. -/
def insertFirst (count : ℕ) (shreds : List (Option Bytes)) (i : ℕ) (data : Bytes) :
    List (Option Bytes) × Bool :=
  if i < count ∧ shreds[i]? = some none then (shreds.set i (some data), true)
  else (shreds, false)

@[simp] theorem length_insertFirst (count : ℕ) (shreds : List (Option Bytes)) (i : ℕ)
    (data : Bytes) : (insertFirst count shreds i data).1.length = shreds.length := by
  unfold insertFirst
  split_ifs <;> simp

/-- The first payload for a position stays. -/
theorem getElem?_insertFirst {count : ℕ} {shreds : List (Option Bytes)}
    (hcount : shreds.length = count) (i : ℕ) (data : Bytes) (j : ℕ) :
    (insertFirst count shreds i data).1[j]? =
      if j = i ∧ shreds[j]? = some none then some (some data) else shreds[j]? := by
  unfold insertFirst
  split_ifs with h hj hj
  · obtain ⟨rfl, -⟩ := hj
    simp [hcount, h.1]
  · have hne : i ≠ j := by
      rintro rfl
      exact hj ⟨rfl, h.2⟩
    simp [hne]
  · obtain ⟨rfl, hnone⟩ := hj
    have hlt := (List.getElem?_eq_some_iff.mp hnone).choose
    exact absurd ⟨hcount ▸ hlt, hnone⟩ h
  · rfl

def addDataShred (batch : FecBatch) (data_index : UInt32) (data : Bytes) : FecBatch × Bool :=
  let inserted := insertFirst batch.num_data batch.data_shreds data_index.toNat data
  ({ batch with
      data_shreds := inserted.1
      length_data_shreds := by rw [length_insertFirst, batch.length_data_shreds] }, inserted.2)

def addCodeShred (batch : FecBatch) (code_position : UInt32) (data : Bytes) :
    FecBatch × Bool :=
  let inserted := insertFirst batch.num_code batch.code_shreds code_position.toNat data
  ({ batch with
      code_shreds := inserted.1
      length_code_shreds := by rw [length_insertFirst, batch.length_code_shreds] }, inserted.2)

/-- `shreds.iter().filter(|s| s.is_some()).count()`. -/
def countPresent (shreds : List (Option Bytes)) : ℕ := shreds.countP Option.isSome

def receivedCount (batch : FecBatch) : ℕ :=
  countPresent batch.data_shreds + countPresent batch.code_shreds

/-- The shreds that are present, with their row indices counted from `first`. -/
def presentShreds (first : ℕ) (shreds : List (Option Bytes)) : List (ℕ × Bytes) :=
  (shreds.zipIdx first).filterMap fun (shred, row) => shred.map fun bytes => (row, bytes)

/-- One turn of the loop over the code shreds: once `num_data` shreds are
selected the loop is over. -/
def selectCode (num_data : ℕ) (selected : List (ℕ × Bytes)) (shred : Option Bytes × ℕ) :
    List (ℕ × Bytes) :=
  if selected.length ≥ num_data then selected
  else
    match shred with
    | (some bytes, row) => selected ++ [(row, bytes)]
    | (none, _) => selected

/-- `row_indices` and `received`, side by side. -/
def selectedShreds (batch : FecBatch) : List (ℕ × Bytes) :=
  (batch.code_shreds.zipIdx batch.num_data).foldl (selectCode batch.num_data)
    (presentShreds 0 batch.data_shreds)

/-- The data shreds, when enough shreds are present to recover them. -/
def tryRecover (batch : FecBatch) : Checked (Option (List Bytes)) :=
  let present_data := countPresent batch.data_shreds
  let present_code := countPresent batch.code_shreds
  if present_data + present_code < batch.num_data then pure none
  else if present_data = batch.num_data then
    pure (some (batch.data_shreds.map fun s => s.getD []))
  else
    let cauchy := generateCauchyMatrix batch.num_data batch.num_code
    let selected := batch.selectedShreds
    decode (selected.map Prod.snd) (selected.map Prod.fst) cauchy batch.num_data

/-! ### The shreds that are selected -/

theorem presentShreds_none (first : ℕ) (shreds : List (Option Bytes)) :
    presentShreds first (none :: shreds) = presentShreds (first + 1) shreds := by
  simp [presentShreds, List.zipIdx_cons]

theorem presentShreds_some (first : ℕ) (bytes : Bytes) (shreds : List (Option Bytes)) :
    presentShreds first (some bytes :: shreds) =
      (first, bytes) :: presentShreds (first + 1) shreds := by
  simp [presentShreds, List.zipIdx_cons]

theorem mem_presentShreds {first : ℕ} {shreds : List (Option Bytes)} {row : ℕ} {bytes : Bytes} :
    (row, bytes) ∈ presentShreds first shreds ↔
      first ≤ row ∧ shreds[row - first]? = some (some bytes) := by
  simp only [presentShreds, List.mem_filterMap, Prod.exists, Option.map_eq_some_iff,
    Prod.mk.injEq, List.mk_mem_zipIdx_iff_le_and_getElem?_sub]
  constructor
  · rintro ⟨_, _, h, _, rfl, rfl, rfl⟩
    exact h
  · intro h
    exact ⟨_, _, h, _, rfl, rfl, rfl⟩

@[simp] theorem length_presentShreds (first : ℕ) (shreds : List (Option Bytes)) :
    (presentShreds first shreds).length = countPresent shreds := by
  induction shreds generalizing first with
  | nil => rfl
  | cons shred shreds ih =>
    cases shred with
    | none => simpa [presentShreds_none, countPresent] using ih (first + 1)
    | some bytes => simpa [presentShreds_some, countPresent] using ih (first + 1)

/-- Rows come in increasing order. -/
theorem presentShreds_sorted (first : ℕ) (shreds : List (Option Bytes)) :
    (presentShreds first shreds).Pairwise fun a b => a.1 < b.1 := by
  induction shreds generalizing first with
  | nil => exact List.Pairwise.nil
  | cons shred shreds ih =>
    cases shred with
    | none => simpa [presentShreds_none] using ih (first + 1)
    | some bytes =>
      rw [presentShreds_some, List.pairwise_cons]
      refine ⟨fun ⟨row, b⟩ hmem => ?_, ih (first + 1)⟩
      exact (mem_presentShreds.mp hmem).1

/-- The code loop stops as soon as `num_data` shreds are selected. -/
theorem foldl_selectCode (num_data : ℕ) (code_shreds : List (Option Bytes)) (first : ℕ)
    (selected : List (ℕ × Bytes)) :
    (code_shreds.zipIdx first).foldl (selectCode num_data) selected =
      selected ++ (presentShreds first code_shreds).take (num_data - selected.length) := by
  induction code_shreds generalizing first selected with
  | nil => simp [presentShreds]
  | cons shred code_shreds ih =>
    rw [List.zipIdx_cons, List.foldl_cons, ih (first + 1)]
    by_cases hfull : selected.length ≥ num_data
    · have hnone : num_data - selected.length = 0 := by omega
      simp [selectCode, hfull, hnone]
    · cases shred with
      | none => simp [selectCode, presentShreds_none]
      | some bytes =>
        have hroom : num_data - selected.length = num_data - (selected.length + 1) + 1 := by
          omega
        rw [presentShreds_some, hroom, List.take_succ_cons]
        simp [selectCode, hfull]

theorem selectedShreds_eq (batch : FecBatch) :
    batch.selectedShreds = presentShreds 0 batch.data_shreds ++
      (presentShreds batch.num_data batch.code_shreds).take
        (batch.num_data - countPresent batch.data_shreds) := by
  rw [selectedShreds, foldl_selectCode, length_presentShreds]

theorem countPresent_data_le (batch : FecBatch) :
    countPresent batch.data_shreds ≤ batch.num_data :=
  batch.length_data_shreds ▸ List.countP_le_length

theorem length_selectedShreds (batch : FecBatch) (h : batch.num_data ≤ batch.receivedCount) :
    batch.selectedShreds.length = batch.num_data := by
  have hdata := batch.countPresent_data_le
  rw [receivedCount] at h
  rw [selectedShreds_eq, List.length_append, List.length_take, length_presentShreds,
    length_presentShreds]
  omega

/-- A selected row is a data shred that is present, or a code shred that is. -/
theorem of_mem_selectedShreds {batch : FecBatch} {row : ℕ} {bytes : Bytes}
    (h : (row, bytes) ∈ batch.selectedShreds) :
    (row < batch.num_data ∧ batch.data_shreds[row]? = some (some bytes)) ∨
      (batch.num_data ≤ row ∧ row < batch.num_data + batch.num_code ∧
        batch.code_shreds[row - batch.num_data]? = some (some bytes)) := by
  rw [selectedShreds_eq, List.mem_append] at h
  rcases h with hdata | hcode
  · obtain ⟨-, hrow⟩ := mem_presentShreds.mp hdata
    have hlt := (List.getElem?_eq_some_iff.mp hrow).choose
    exact .inl ⟨batch.length_data_shreds ▸ hlt, hrow⟩
  · obtain ⟨hle, hrow⟩ := mem_presentShreds.mp (List.mem_of_mem_take hcode)
    have hlt := (List.getElem?_eq_some_iff.mp hrow).choose
    rw [batch.length_code_shreds] at hlt
    exact .inr ⟨hle, by omega, hrow⟩

theorem selectedShreds_sorted (batch : FecBatch) :
    batch.selectedShreds.Pairwise fun a b => a.1 < b.1 := by
  rw [selectedShreds_eq, List.pairwise_append]
  refine ⟨presentShreds_sorted _ _, (presentShreds_sorted _ _).sublist (List.take_sublist _ _),
    fun ⟨r, a⟩ ha ⟨s, b⟩ hb => ?_⟩
  obtain ⟨-, hr⟩ := mem_presentShreds.mp ha
  obtain ⟨hs, -⟩ := mem_presentShreds.mp (List.mem_of_mem_take hb)
  have hlt := (List.getElem?_eq_some_iff.mp hr).choose
  rw [batch.length_data_shreds] at hlt
  show r < s
  omega

theorem nodup_selectedRows (batch : FecBatch) :
    (batch.selectedShreds.map Prod.fst).Nodup := by
  rw [List.Nodup, List.pairwise_map]
  exact batch.selectedShreds_sorted.imp fun h => h.ne

theorem lt_of_mem_selectedRows {batch : FecBatch} {row : ℕ}
    (h : row ∈ batch.selectedShreds.map Prod.fst) : row < batch.num_data + batch.num_code := by
  obtain ⟨⟨_, bytes⟩, hmem, rfl⟩ := List.mem_map.mp h
  rcases of_mem_selectedShreds hmem with ⟨hrow, -⟩ | ⟨-, hrow, -⟩
  · exact lt_of_lt_of_le hrow (Nat.le_add_right _ _)
  · exact hrow

/-! ### Recovery -/

theorem tryRecover_eq_none {batch : FecBatch} (h : batch.receivedCount < batch.num_data) :
    batch.tryRecover = .ok none := if_pos h

theorem tryRecover_all {batch : FecBatch}
    (h : countPresent batch.data_shreds = batch.num_data) :
    batch.tryRecover = .ok (some (batch.data_shreds.map fun s => s.getD [])) := by
  rw [tryRecover, if_neg (by omega), if_pos h]
  rfl

theorem tryRecover_eq_decode {batch : FecBatch} (hcount : batch.num_data ≤ batch.receivedCount)
    (hdata : countPresent batch.data_shreds ≠ batch.num_data) :
    batch.tryRecover = decode (batch.selectedShreds.map Prod.snd)
      (batch.selectedShreds.map Prod.fst)
      (generateCauchyMatrix batch.num_data batch.num_code) batch.num_data := by
  rw [receivedCount] at hcount
  rw [tryRecover, if_neg (by omega), if_neg hdata]

/-! ### Panics -/

/-- The shreds that recovery works with: every data shred that is present, and
a code shred when fewer than `num_data` shreds come before it. -/
def Uses (batch : FecBatch) (row : ℕ) (bytes : Bytes) : Prop :=
  batch.data_shreds[row]? = some (some bytes) ∨
    (batch.num_data ≤ row ∧ batch.code_shreds[row - batch.num_data]? = some (some bytes) ∧
      countPresent batch.data_shreds +
        countPresent (batch.code_shreds.take (row - batch.num_data)) < batch.num_data)

theorem mem_take_presentShreds {first n : ℕ} {shreds : List (Option Bytes)} {row : ℕ}
    {bytes : Bytes} :
    (row, bytes) ∈ (presentShreds first shreds).take n ↔
      first ≤ row ∧ shreds[row - first]? = some (some bytes) ∧
        countPresent (shreds.take (row - first)) < n := by
  induction shreds generalizing first n with
  | nil => simp [presentShreds]
  | cons shred shreds ih =>
    -- the row is past, the one at the head, or further on
    rcases Nat.lt_trichotomy row first with hlt | rfl | hlt
    · have hnot : (row, bytes) ∉ (presentShreds first (shred :: shreds)).take n := by
        intro hmem
        have := (mem_presentShreds.mp (List.mem_of_mem_take hmem)).1
        omega
      simp [hnot, Nat.not_le.mpr hlt]
    · cases shred with
      | none => simp [presentShreds_none, ih]
      | some b =>
        cases n with
        | zero => simp
        | succ n =>
          rw [presentShreds_some, List.take_succ_cons, List.mem_cons, ih]
          simp [countPresent, eq_comm]
    · obtain ⟨k, rfl⟩ : ∃ k, row = first + 1 + k := ⟨row - first - 1, by omega⟩
      have hsub : first + 1 + k - first = k + 1 := by omega
      have hsub' : first + 1 + k - (first + 1) = k := by omega
      have hne : first + 1 + k ≠ first := by omega
      cases shred with
      | none => simp [presentShreds_none, ih, hsub, hsub', hlt.le, countPresent]
      | some b =>
        cases n with
        | zero => simp
        | succ n =>
          rw [presentShreds_some, List.take_succ_cons, List.mem_cons, ih]
          simp [hsub, hsub', hlt.le, hne, countPresent]

theorem mem_selectedShreds {batch : FecBatch} {row : ℕ} {bytes : Bytes} :
    (row, bytes) ∈ batch.selectedShreds ↔ batch.Uses row bytes := by
  rw [selectedShreds_eq, List.mem_append, mem_presentShreds, mem_take_presentShreds, Uses]
  simp [Nat.lt_sub_iff_add_lt']

/-- Some nonzero column of data bytes leaves no trace in the shreds that
recovery works with. -/
def Singular (batch : FecBatch) : Prop :=
  ∃ v : Fin batch.num_data → GF256, v ≠ 0 ∧ ∀ row bytes, batch.Uses row bytes →
    ∑ j, CauchyCode.generatorRow point (pole batch.num_data) row j * v j = 0

/-- No shred that recovery works with is shorter than the first of them. -/
def FirstShortest (batch : FecBatch) : Prop :=
  ∀ first_row first, batch.Uses first_row first →
    (∀ row bytes, batch.Uses row bytes → first_row ≤ row) →
    ∀ row bytes, batch.Uses row bytes → first.length ≤ bytes.length

theorem det_eq_zero_iff_singular {batch : FecBatch}
    (hcount : batch.num_data ≤ batch.receivedCount) :
    (receivedMatrix batch.num_data (batch.selectedShreds.map Prod.fst)).det = 0 ↔
      batch.Singular := by
  have hlen := length_selectedShreds batch hcount
  rw [← Matrix.exists_mulVec_eq_zero_iff]
  refine exists_congr fun v => and_congr_right fun _ => ?_
  have hrow : ∀ k : Fin batch.num_data, ∃ hk : k.val < batch.selectedShreds.length,
      (batch.selectedShreds.map Prod.fst).getD k.val 0 = batch.selectedShreds[k.val].1 := by
    intro k
    have hk : k.val < batch.selectedShreds.length := by rw [hlen]; exact k.isLt
    exact ⟨hk, by simp [List.getD_eq_getElem?_getD, hk]⟩
  rw [funext_iff]
  -- a kernel vector vanishes on every row that the batch uses
  constructor
  · intro h row bytes huse
    obtain ⟨k, hk, hget⟩ := List.getElem_of_mem (mem_selectedShreds.mpr huse)
    obtain ⟨_, hk'⟩ := hrow ⟨k, hlen ▸ hk⟩
    have hzero := h ⟨k, hlen ▸ hk⟩
    rw [receivedMatrix, Matrix.mulVec, dotProduct] at hzero
    simp only [CauchyCode.selectedRows, hk', hget] at hzero
    exact hzero
  · intro h k
    obtain ⟨hk, hk'⟩ := hrow k
    rw [receivedMatrix, Matrix.mulVec, dotProduct]
    simp only [CauchyCode.selectedRows, hk']
    exact h _ _ (mem_selectedShreds.mp (List.getElem_mem hk))

theorem firstShortest_iff {batch : FecBatch} (h0 : 0 < batch.selectedShreds.length) :
    (∀ bytes ∈ batch.selectedShreds.map Prod.snd,
      batch.selectedShreds[0].2.length ≤ bytes.length) ↔ batch.FirstShortest := by
  obtain ⟨⟨row₀, first⟩, rest, hsel⟩ := List.exists_cons_of_length_pos h0
  have hsorted := batch.selectedShreds_sorted
  have hfirst : batch.Uses row₀ first := mem_selectedShreds.mp (by simp [hsel])
  simp only [hsel, List.getElem_cons_zero]
  rw [hsel, List.pairwise_cons] at hsorted
  -- the selected shreds are sorted by row, so the first has the least row
  have hleast : ∀ row bytes, batch.Uses row bytes → row₀ ≤ row := by
    intro row bytes huse
    have hmem := mem_selectedShreds.mpr huse
    rw [hsel, List.mem_cons] at hmem
    rcases hmem with heq | hmem
    · exact (Prod.mk.inj heq).1.ge
    · exact (hsorted.1 _ hmem).le
  have hunique : ∀ bytes, batch.Uses row₀ bytes → bytes = first := by
    intro bytes huse
    have hmem := mem_selectedShreds.mpr huse
    rw [hsel, List.mem_cons] at hmem
    rcases hmem with heq | hmem
    · exact (Prod.mk.inj heq).2
    · exact absurd (hsorted.1 _ hmem) (lt_irrefl _)
  constructor
  · intro h first_row bytes₀ huse₀ hmin row bytes huse
    have hrow : first_row = row₀ := le_antisymm (hmin _ _ hfirst) (hleast _ _ huse₀)
    subst hrow
    rw [hunique _ huse₀]
    refine h bytes (List.mem_map.mpr ⟨(row, bytes), ?_, rfl⟩)
    rw [← hsel]
    exact mem_selectedShreds.mpr huse
  · intro h bytes hbytes
    obtain ⟨⟨row, b⟩, hmem, rfl⟩ := List.mem_map.mp hbytes
    rw [← hsel] at hmem
    exact h row₀ first hfirst hleast row b (mem_selectedShreds.mp hmem)

theorem tryRecover_returns_iff (batch : FecBatch) :
    Returns batch.tryRecover ↔
      batch.receivedCount < batch.num_data ∨
        countPresent batch.data_shreds = batch.num_data ∨
        batch.Singular ∨ batch.FirstShortest := by
  -- too few shreds, all the data, and otherwise the decoder
  by_cases hcount : batch.receivedCount < batch.num_data
  · simp [tryRecover_eq_none hcount, hcount]
  by_cases hall : countPresent batch.data_shreds = batch.num_data
  · simp [tryRecover_all hall, hall]
  have hcount' := Nat.not_lt.mp hcount
  have hlen := length_selectedShreds batch hcount'
  have h0 : 0 < batch.selectedShreds.length := by
    have hle := batch.countPresent_data_le
    omega
  rw [tryRecover_eq_decode hcount' hall, decode_returns_iff (by simpa using hlen)
    (by simpa using hlen) (fun row hrow => lt_of_mem_selectedRows hrow) (by simpa using h0),
    det_eq_zero_iff_singular hcount', List.getElem_map, firstShortest_iff h0]
  simp [hcount, hall]

end FecBatch

/-- A call on a batch. -/
inductive BatchCall
  | addDataShred (data_index : UInt32) (data : Bytes)
  | addCodeShred (code_position : UInt32) (data : Bytes)

namespace FecBatch

def call (batch : FecBatch) : BatchCall → FecBatch
  | .addDataShred data_index data => (batch.addDataShred data_index data).1
  | .addCodeShred code_position data => (batch.addCodeShred code_position data).1

/-- The batch after a sequence of calls. -/
def run (slot : UInt64) (fec_set_index : UInt32) (num_data num_code : ℕ)
    (calls : List BatchCall) : FecBatch :=
  calls.foldl call (new slot fec_set_index num_data num_code)

/-- **When recovery panics**: after any calls, recovery returns unless it has
to decode, the shreds it uses determine the data, and one of them is shorter
than the first one. -/
theorem run_tryRecover_returns_iff (slot : UInt64) (fec_set_index : UInt32)
    (num_data num_code : ℕ) (calls : List BatchCall) :
    let batch := run slot fec_set_index num_data num_code calls
    Returns batch.tryRecover ↔
      batch.receivedCount < batch.num_data ∨
        countPresent batch.data_shreds = batch.num_data ∨
        batch.Singular ∨ batch.FirstShortest :=
  tryRecover_returns_iff _

/-- Two data shreds of different lengths and one code shred. -/
theorem run_tryRecover_panics :
    ¬ ∀ (slot : UInt64) (fec_set_index : UInt32) (num_data num_code : ℕ)
        (calls : List BatchCall),
      Returns (run slot fec_set_index num_data num_code calls).tryRecover := by
  intro h
  have hpanic : ¬ Returns (run 7 0 3 1 [.addDataShred 0 [1, 2], .addDataShred 1 [3],
      .addCodeShred 0 (List.replicate 743 9)]).tryRecover := by decide +kernel
  exact hpanic (h 7 0 3 1 _)

end FecBatch

end Sg32
