/-
Blocks out of packets (the whole of the main loop).

The shreds of some erasure sets arrive as answers to requests, among pings,
contact infos, polls and packets that hold no shred.  The payloads of code
shreds of the wire format do not have the length of those of their data shreds,
so a set is complete here when its data shreds are.

* `shredOf_answer` — an answer of the wire format gives its shred;
* `run_serves_iff` — the loop does not panic, and serves the blocks of which 32
  different shreds arrived, and no others.
-/
import Sg32.NodeLoop
import Sg32.Pipeline

namespace Sg32

open Rust Bytes SlotRingBuffer

/-- A packet of the wire format with a nonce fits the buffer. -/
theorem shredOf_answer (wire : WireShred) (nonce : UInt32) :
    shredOf ((wire.packet ++ le32 nonce).take PACKET_DATA_SIZE) =
      Shred.parseFromBytes wire.packet := by
  have hlen : wire.packet.length ≤ 1228 := by
    cases wire with
    | data wire => exact wire.length_packet.trans_le (by decide)
    | code wire => exact wire.length_packet.le
  rw [List.take_of_length_le (by
    rw [List.length_append, length_le32, PACKET_DATA_SIZE]
    omega)]
  exact wire.shredOf_packet_nonce nonce

namespace FecSet

/-- The rows of the set that some events bring. -/
def arrived (set : FecSet) (events : List NodeEvent) : Finset ℕ :=
  set.rows ((events.flatMap MainLoop.deliveries).map Prod.fst)

theorem mem_arrived {set : FecSet} {events : List NodeEvent} {row : ℕ} :
    row ∈ set.arrived events ↔ ∃ packet peer io shred, .datagram packet peer io ∈ events ∧
      shredOf (packet.take PACKET_DATA_SIZE) = some shred ∧ set.shreds[row]? = some shred := by
  rw [arrived, mem_rows]
  simp only [List.mem_map, List.mem_flatMap]
  constructor
  · rintro ⟨_, ⟨⟨shred, io⟩, ⟨e, he, hd⟩, rfl⟩, hrow⟩
    cases e with
    | contactInfo ci => cases hd
    | wake slot now done requests => cases hd
    | datagram packet peer io' =>
      obtain ⟨shred', hshred, heq⟩ := List.mem_map.mp hd
      cases heq
      exact ⟨packet, peer, _, shred, he, Option.mem_toList.mp hshred, hrow⟩
  · rintro ⟨packet, peer, io, shred, he, hshred, hrow⟩
    refine ⟨shred, ⟨(shred, io), ⟨_, he, ?_⟩, rfl⟩, hrow⟩
    exact List.mem_map.mpr ⟨shred, Option.mem_toList.mpr hshred, rfl⟩

end FecSet

namespace MainLoop

variable {env : NodeEnv} {first : ℕ} {sets : List FecSet} {events : List NodeEvent}

/-- Every packet that holds a shred holds one of the sets. -/
def FromSets (sets : List FecSet) (events : List NodeEvent) : Prop :=
  ∀ packet peer io shred, .datagram packet peer io ∈ events →
    shredOf (packet.take PACKET_DATA_SIZE) = some shred → ∃ set ∈ sets, shred ∈ set.shreds

theorem mem_deliveries (hfrom : FromSets sets events) :
    ∀ delivery ∈ events.flatMap deliveries, ∃ set ∈ sets, delivery.1 ∈ set.shreds := by
  intro delivery hdelivery
  obtain ⟨e, he, hd⟩ := List.mem_flatMap.mp hdelivery
  cases e with
  | contactInfo ci => cases hd
  | wake slot now done requests => cases hd
  | datagram packet peer io =>
    obtain ⟨shred, hshred, rfl⟩ := List.mem_map.mp hd
    exact hfrom packet peer io shred he (Option.mem_toList.mp hshred)

/-- **From packets to blocks**, with one set for each slot, all in one window:
whatever else happens, the loop goes on, and in the end it serves the sets of
which 32 different shreds arrived, each with the block of its set. -/
theorem run_serves_iff (hsets : OneWindow first sets) (now : ℕ) (file_store : FlatFileStore)
    (disk : Disk) (hfrom : FromSets sets events) :
    ∃ s' log, run env (start now file_store disk) events = .ok (s', log) ∧
      (∀ set ∈ sets, NUM_DATA_SHREDS ≤ (set.arrived events).card →
        ∃ data, s'.node.ring_buffer.get set.id.slot = .ok (some data) ∧
          set.Serves env.libs data) ∧
      (∀ set ∈ sets, (set.arrived events).card < NUM_DATA_SHREDS →
        s'.node.ring_buffer.get set.id.slot = .ok none) ∧
      ∀ slot, (∀ set ∈ sets, set.id.slot ≠ slot) → s'.node.ring_buffer.get slot = .ok none := by
  obtain ⟨node, hnode, hstate⟩ := foldlM_invariant (RunState env.libs first sets)
    (fun seen node delivery hfrom h => step_runState env.build hsets seen node delivery hfrom h)
    (mem_deliveries hfrom) (runState_start first sets file_store disk {})
  rw [List.nil_append] at hstate
  -- the loop takes the node where the pipeline does
  have hrun := run_map_node env (start now file_store disk) events
  rw [show Sg32.run env.libs env.build (start now file_store disk).node
    (events.flatMap deliveries) = .ok node from hnode] at hrun
  rcases hloop : run env (start now file_store disk) events with p | ⟨s', log⟩
  · rw [hloop] at hrun
    cases hrun
  · rw [hloop] at hrun
    cases hrun
    have hget := get_eq hstate.window.inWindow.capacity_ne_zero
    refine ⟨s', log, rfl, fun set hset hmany => ?_, fun set hset hfew => ?_, fun slot hslot => ?_⟩
    · obtain ⟨data, hdata, hserves⟩ := (hstate.setState set hset).served hmany
      exact ⟨data, by rw [hget, hdata], hserves⟩
    · rw [hget, (hstate.setState set hset).absent hfew]
    · rw [hget, hstate.absent slot hslot]

end MainLoop

/-! ### A sample run -/

/-- The shred with the variant byte of its kind, without a proof. -/
def Shred.withVariant : Shred → Shred
  | .merkleData common_header data_header merkle_root merkle_proof data =>
    .merkleData { common_header with shred_variant := 0x90 } data_header merkle_root merkle_proof
      data
  | .merkleCode common_header coding_header merkle_root merkle_proof code =>
    .merkleCode { common_header with shred_variant := 0x60 } coding_header merkle_root merkle_proof
      code

/-- The set with shreds that have a wire format. -/
def FecSet.withVariants (set : FecSet) : FecSet where
  id := set.id
  data_shreds := set.data_shreds
  code_shreds := set.code_shreds
  result := set.result
  shreds := set.shreds.map Shred.withVariant
  length_data := set.length_data
  length_eq := set.length_eq
  encoded := set.encoded
  deshredded := set.deshredded
  length_shreds := by rw [List.length_map, set.length_shreds]
  isRow row shred h := by
    rw [List.getElem?_map] at h
    obtain ⟨plain, hplain, rfl⟩ := Option.map_eq_some_iff.mp h
    have hrow := set.isRow row plain hplain
    cases plain <;> exact hrow
  hasId shred hmem := by
    obtain ⟨plain, hplain, rfl⟩ := List.mem_map.mp hmem
    have hid := set.hasId plain hplain
    cases plain <;> exact hid
  dims shred hmem := by
    obtain ⟨plain, hplain, rfl⟩ := List.mem_map.mp hmem
    have hdims := set.dims plain hplain
    cases plain <;> exact hdims

theorem length_smallData (row : Fin NUM_DATA_SHREDS) : (smallData.getD row []).length = 3 := by
  have hlt : row.val < smallData.length := row.isLt
  rw [List.getD_eq_getElem _ _ hlt]
  exact length_mem_smallData _ (List.getElem_mem hlt)

/-- A data shred of slot 7 as it is laid out, with a root of zeros. -/
def sampleWire (row : Fin NUM_DATA_SHREDS) : WireData where
  common_header :=
    { signature := Vector.replicate 64 0
      shred_variant := 0x90
      slot := 7
      index := .ofNat row
      version := 1
      fec_set_index := 0 }
  data_header := { parent_offset := 1, flags := 0, size := 91 }
  payload := smallData.getD row []
  footer := WireShred.bareSeal (Vector.replicate 32 0)
  variant := rfl
  size := by rw [length_smallData row]; rfl
  fits := by rw [length_smallData row]; decide

/-- The root is sought in the padding, which is zero too. -/
theorem parseFromBytes_sampleWire (row : Fin NUM_DATA_SHREDS) :
    Shred.parseFromBytes (WireShred.data (sampleWire row)).packet =
      some (smallShred 7 row).withVariant := by
  have hshred : (smallShred 7 row).withVariant =
      (WireShred.data (sampleWire row)).shredWith (Vector.replicate 32 0) [] := by
    rw [smallShred, if_pos row.isLt]
    rfl
  have hpadding : (WireShred.data (sampleWire row)).padding = 1080 := by
    show SIZE_OF_DATA_SHRED - (88 + (smallData.getD row []).length + 32) = 1080
    rw [length_smallData row]
    rfl
  rw [hshred, WireShred.parseFromBytes_eq_some_iff, hpadding]
  refine ⟨rfl, ?_⟩
  rw [show List.replicate 1080 (0 : UInt8) = List.replicate 32 0 ++ List.replicate 1048 0 by
    rw [List.replicate_append_replicate], List.append_assoc]
  exact getRange_append (show ([] : Bytes).length = 0 from rfl) rfl

/-- A contact info, a ping, a poll, and the data shreds of slot 7, the last first. -/
def sampleEvents : List NodeEvent :=
  sampleTraffic ++ (List.finRange NUM_DATA_SHREDS).reverse.map fun row =>
    .datagram ((WireShred.data (sampleWire row)).packet ++ le32 9) samplePeer allWritten

/-- The set of slot 7, whose data shreds come in these packets. -/
abbrev sampleSet : FecSet := (smallSet 7).withVariants

theorem getElem?_sampleSet (row : Fin NUM_DATA_SHREDS) :
    sampleSet.shreds[row.val]? = some (smallShred 7 row).withVariant := by
  have hlt : row.val < 64 := lt_trans row.isLt (by decide)
  simp [FecSet.withVariants, smallSet, hlt]

theorem oneWindow_sampleSet : OneWindow 0 [sampleSet] := by
  refine ⟨fun set hset other hother _ => ?_, fun set hset => ?_⟩
  · rw [List.mem_singleton.mp hset, List.mem_singleton.mp hother]
  · rw [List.mem_singleton.mp hset]
    exact ⟨by decide, by decide, by decide⟩

/-- A packet of the run is the ping, or a shred of the set. -/
theorem shredOf_sampleEvents {packet : Bytes} {peer : SocketAddr} {io : FileIo}
    (hmem : .datagram packet peer io ∈ sampleEvents) :
    shredOf (packet.take PACKET_DATA_SIZE) = none ∨
      ∃ row : Fin NUM_DATA_SHREDS, shredOf (packet.take PACKET_DATA_SIZE) =
        some (smallShred 7 row).withVariant := by
  rcases List.mem_cons.mp hmem with h | hmem
  · cases h
  rcases List.mem_cons.mp hmem with h | hmem
  · cases h
    exact .inl (shredOf_ping (isPing_iff.mpr
      ⟨_, List.take_of_length_le (by rw [length_pingPacket]; decide)⟩))
  rcases List.mem_cons.mp hmem with h | hmem
  · cases h
  obtain ⟨row, -, hrow⟩ := List.mem_map.mp hmem
  cases hrow
  exact .inr ⟨row, (shredOf_answer _ 9).trans (parseFromBytes_sampleWire row)⟩

theorem fromSets_sampleEvents : MainLoop.FromSets [sampleSet] sampleEvents := by
  intro packet peer io shred hmem hshred
  rcases shredOf_sampleEvents hmem with hnone | ⟨row, hrow⟩
  · rw [hnone] at hshred
    cases hshred
  · rw [hrow] at hshred
    cases hshred
    exact ⟨_, List.mem_singleton_self _, List.mem_of_getElem? (getElem?_sampleSet row)⟩

/-- Every data shred of the set arrives in these events. -/
theorem le_card_arrived {events : List NodeEvent} (h : ∀ row : Fin NUM_DATA_SHREDS,
    .datagram ((WireShred.data (sampleWire row)).packet ++ le32 9) samplePeer allWritten ∈
      events) : NUM_DATA_SHREDS ≤ (sampleSet.arrived events).card := by
  have hrows : Finset.range NUM_DATA_SHREDS ⊆ sampleSet.arrived events := by
    intro row hrow
    let i : Fin NUM_DATA_SHREDS := ⟨row, Finset.mem_range.mp hrow⟩
    exact FecSet.mem_arrived.mpr ⟨_, samplePeer, allWritten, _, h i,
      (shredOf_answer (.data (sampleWire i)) 9).trans (parseFromBytes_sampleWire i),
      getElem?_sampleSet i⟩
  calc NUM_DATA_SHREDS = (Finset.range NUM_DATA_SHREDS).card := (Finset.card_range _).symm
    _ ≤ _ := Finset.card_le_card hrows

theorem mem_sampleEvents (row : Fin NUM_DATA_SHREDS) :
    .datagram ((WireShred.data (sampleWire row)).packet ++ le32 9) samplePeer allWritten ∈
      sampleEvents :=
  List.mem_append_right _ (List.mem_map.mpr ⟨row, by simp, rfl⟩)

/-- The 32 data shreds of slot 7; no code shred arrives. -/
theorem run_serves_sample : ∃ s' log,
    MainLoop.run sampleNodeEnv (.start 0 .empty ∅) sampleEvents = .ok (s', log) ∧
      ∃ data, s'.node.ring_buffer.get 7 = .ok (some data) ∧ sampleSet.Serves sampleLibs data := by
  obtain ⟨s', log, hrun, hserved, -⟩ := @MainLoop.run_serves_iff sampleNodeEnv 0 _ _
    oneWindow_sampleSet 0 .empty ∅ fromSets_sampleEvents
  exact ⟨s', log, hrun, hserved _ (List.mem_singleton_self _) (le_card_arrived mem_sampleEvents)⟩

end Sg32
