/-
A node that is started again (`main.rs`, `flat_file_store.rs`).

Batches and ring buffer are gone when a node ends, after whatever event; the next
one opens the data directory that is left.  While all writes succeed, every
block that was complete in some life of the node is answered in all later ones.
Complete is a set of which all data shreds arrived, as in a single life.

* `step_keepsFiles` — every block in the ring buffer is in the directory too;
* `exists_live` — what one life has, of this one and of those before;
* `lives_answer` — the answers after any number of lives.
-/
import Sg32.EndToEnd
import Sg32.StoreRestart

namespace Sg32

open Rust Bytes Reactor SlotRingBuffer FlatFileStore

/-! ### Blocks in the data directory -/

variable {libs : Libs} {build : Build} {io : FileIo} {first : ℕ} {sets within : List FecSet}
  {node node' : Node} {set : FecSet} {held : FecSet → Prop} {saves : List (UInt64 × Bytes)}

/-- Both files of a block are written. -/
structure FileIo.Written (io : FileIo) : Prop where
  dataWrite : io.dataWrite = .written
  metaWrite : io.metaWrite = .written

/-- No two of the sets are for one slot. -/
def OneForEachSlot (sets : List FecSet) : Prop :=
  ∀ set ∈ sets, ∀ other ∈ sets, other.id.slot = set.id.slot → other = set

/-- The last save for the slot is that of the set. -/
def SavedLast (saves : List (UInt64 × Bytes)) (set : FecSet) : Prop :=
  saves.lookup set.id.slot = some set.data_shreds.flatten

/-- The directory has the blocks that are held from before, and those that the
ring buffer has. -/
def KeepsFiles (sets : List FecSet) (held : FecSet → Prop) (node : Node) : Prop :=
  ∃ saves, InSync saves node.file_store node.disk ∧ ∀ set ∈ sets,
    held set ∨ (node.ring_buffer.contents set.id.slot).isSome → SavedLast saves set

/-- A block goes into the directory with its publication. -/
theorem keepsFiles_of_publishes (hslots : OneForEachSlot sets) (hset : set ∈ sets)
    (hio : io.Written) (h : KeepsFiles sets held node) {batch : FecBatch}
    (hslot : batch.slot = set.id.slot)
    (hpub : Publishes libs build io node batch set.data_shreds set.result node')
    (hcontents : ∀ slot, slot ≠ set.id.slot →
      node'.ring_buffer.contents slot = node.ring_buffer.contents slot) :
    KeepsFiles sets held node' := by
  obtain ⟨saves, hsync, hsaved⟩ := h
  have hsave : node.file_store.saveSlot node.disk set.id.slot set.data_shreds.flatten
      io.dataWrite io.metaWrite = (node'.file_store, node'.disk, true) := by
    rw [hpub.file_store, hpub.disk, hslot, hio.dataWrite, hio.metaWrite]
    rfl
  refine ⟨_, hsync.save hsave, fun other hother hhas => ?_⟩
  rw [SavedLast, List.lookup_cons]
  by_cases hsame : other.id.slot = set.id.slot
  · obtain rfl := hslots set hset other hother hsame
    rw [beq_self_eq_true]
  · rw [beq_false_of_ne hsame]
    rw [hcontents _ hsame] at hhas
    exact hsaved other hother hhas

theorem step_keepsFiles {seen : List Delivery} {shred : Shred} (hslots : OneForEachSlot sets)
    (hsub : within ⊆ sets) (hwindow : OneWindow first within)
    (hstate : RunState libs first within seen node) (hset : set ∈ within)
    (hmem : shred ∈ set.shreds) (hio : io.Written)
    (hstep : processShred libs build io node shred = .ok node')
    (h : KeepsFiles sets held node) : KeepsFiles sets held node' := by
  rcases step_publishes hwindow hstate hset hmem hstep with
    hkeep | ⟨batch, hslot, hpub, hcontents⟩
  · rw [KeepsFiles, hkeep.file_store, hkeep.disk, hkeep.ring_buffer]
    exact h
  · exact keepsFiles_of_publishes hslots (hsub hset) hio h hslot hpub
      fun slot hne => by rw [hcontents, if_neg hne]

/-- **A run keeps the files** that were there, and saves what it publishes. -/
theorem exists_run_keepsFiles (libs : Libs) (build : Build) (hslots : OneForEachSlot sets)
    (hsub : within ⊆ sets) (hwindow : OneWindow first within) {file_store : FlatFileStore}
    {disk : Disk} (stats : PipelineStats) (hsync : InSync saves file_store disk)
    (hheld : ∀ set ∈ sets, held set → SavedLast saves set) {deliveries : List Delivery}
    (hfrom : ∀ delivery ∈ deliveries, ∃ set ∈ within, delivery.1 ∈ set.shreds)
    (hio : ∀ delivery ∈ deliveries, delivery.2.Written) :
    ∃ node, run libs build (.start file_store disk stats) deliveries = .ok node ∧
      RunState libs first within deliveries node ∧ HoldsBlocks libs within node ∧
      KeepsFiles sets held node := by
  have hstart : KeepsFiles sets held (.start file_store disk stats) := by
    refine ⟨saves, hsync, fun set hset hhas => ?_⟩
    rcases hhas with hhas | hhas
    · exact hheld set hset hhas
    · rw [Node.start, contents_new] at hhas
      cases hhas
  have hboth : ∀ seen node (delivery : Delivery),
      (∃ set ∈ within, delivery.1 ∈ set.shreds) ∧ delivery.2.Written →
      RunState libs first within seen node ∧ KeepsFiles sets held node →
      ∃ node', processShred libs build delivery.2 node delivery.1 = .ok node' ∧
        RunState libs first within (seen ++ [delivery]) node' ∧ KeepsFiles sets held node' := by
    rintro seen node delivery ⟨⟨set, hset, hmem⟩, hwritten⟩ ⟨hstate, hfiles⟩
    obtain ⟨node', hstep, hstate'⟩ := step_runState build hwindow seen node delivery
      ⟨set, hset, hmem⟩ hstate
    exact ⟨node', hstep, hstate',
      step_keepsFiles hslots hsub hwindow hstate hset hmem hwritten hstep hfiles⟩
  obtain ⟨node, hrun, hstate, hfiles⟩ := foldlM_invariant
    (fun seen node => RunState libs first within seen node ∧ KeepsFiles sets held node) hboth
    (fun delivery hmem => ⟨hfrom delivery hmem, hio delivery hmem⟩)
    ⟨runState_start first within file_store disk stats, hstart⟩
  obtain ⟨node', hrun', -, hblocks⟩ := exists_run_holdsBlocks libs build hwindow file_store disk
    stats hfrom
  cases hrun.symm.trans hrun'
  exact ⟨node, hrun, hstate, hblocks, hfiles⟩

/-- A directory in which these blocks are the last that were saved for their slots. -/
def SavedIn (disk : Disk) (sets : List FecSet) (held : FecSet → Prop) : Prop :=
  ∃ saves store, InSync saves store disk ∧ ∀ set ∈ sets, held set → SavedLast saves set

theorem loadSlot_of_savedLast {store : FlatFileStore} {disk : Disk}
    (hsync : InSync saves store disk) (h : SavedLast saves set) :
    store.loadSlot disk set.id.slot = some set.data_shreds.flatten :=
  (loadSlot_of_inSync hsync _).trans h

/-! ### Lives of a node -/

namespace NodeSystem

variable {F : Type} {Tx : Type} {rpc : RpcLibs Tx} {env : SystemEnv F} {disk : Disk}

/-- One life of a node: the order in which its data directory is listed, its
clocks, and what happens until it ends. -/
structure Life (F : Type) where
  readDir : Disk → List FileName
  readDir_perm : ∀ disk, (readDir disk).Perm disk.keys
  last_pull : ℕ
  last_prune : ℕ
  last_repair_poll : ℕ
  events : List (SystemEvent F)

/-- A life over a data directory; none when that cannot be opened, or in a panic. -/
def live (env : SystemEnv F) (disk : Disk) (life : Life F) : Option NodeSystem := do
  let file_store ← FlatFileStore.new disk (life.readDir disk)
  let (s, _) ← (run env (start env life.last_pull life.last_prune life.last_repair_poll file_store
    disk) life.events).toOption
  pure s

/-- The data directory that some lives leave, the first of which found none. -/
def diskAfter (env : SystemEnv F) (lives : List (Life F)) : Option Disk :=
  lives.foldlM (fun disk life => (live env disk life).map fun s => s.main.node.disk) ∅

/-- What arrives in a life are shreds of some of the sets, all in one window,
and what it writes is written. -/
structure Fed (sets : List FecSet) (life : Life F) : Prop where
  arrives : ∃ first within, within ⊆ sets ∧ OneWindow first within ∧
    MainLoop.FromSets within (datagrams life.events)
  written : ∀ packet peer io, .datagram packet peer io ∈ datagrams life.events → io.Written

/-- Enough of the set arrives in the life. -/
def Completes (life : Life F) (set : FecSet) : Prop :=
  NUM_DATA_SHREDS ≤ (set.arrived (datagrams life.events)).card

variable {life : Life F} {lives : List (Life F)}

theorem exists_completes_concat : (∃ life' ∈ lives ++ [life], Completes life' set) ↔
    (∃ life' ∈ lives, Completes life' set) ∨ Completes life set := by
  simp [or_and_right, exists_or]

theorem Fed.deliveries_written (h : Fed sets life) :
    ∀ delivery ∈ (datagrams life.events).flatMap MainLoop.deliveries, delivery.2.Written := by
  intro delivery hdelivery
  obtain ⟨e, he, hd⟩ := List.mem_flatMap.mp hdelivery
  cases e with
  | contactInfo ci => cases hd
  | wake slot now done requests => cases hd
  | datagram packet peer io =>
    obtain ⟨shred, -, rfl⟩ := List.mem_map.mp hd
    exact h.written packet peer io he

/-- A set that completes is one of those that arrive. -/
theorem mem_within_of_completes (hslots : OneForEachSlot sets) (hsub : within ⊆ sets)
    (hfrom : MainLoop.FromSets within (datagrams life.events)) (hset : set ∈ sets)
    (h : Completes life set) : set ∈ within := by
  obtain ⟨row, hrow⟩ := Finset.card_pos.mp (lt_of_lt_of_le (by decide) h)
  obtain ⟨packet, peer, io, shred, hmem, hshred, hget⟩ := FecSet.mem_arrived.mp hrow
  obtain ⟨other, hother, hin⟩ := hfrom packet peer io shred hmem hshred
  have hid : other.id = set.id :=
    (other.hasId shred hin).symm.trans (set.hasId shred (List.mem_of_getElem? hget))
  rw [← hslots set hset other (hsub hother) (congrArg ErasureSetId.slot hid)]
  exact hother

/-- **One life**: it goes on to its end, and has the blocks that it found in the
directory and those that completed. -/
theorem exists_live (hlibs : env.main.libs = rpc.toLibs) (hslots : OneForEachSlot sets)
    (hsaved : SavedIn disk sets held) (hfed : Fed sets life) :
    ∃ s, live env disk life = some s ∧
      SavedIn s.main.node.disk sets (fun set => held set ∨ Completes life set) ∧
      ∀ set ∈ sets, held set ∨ Completes life set →
        HasBlock rpc s.main.node set.id.slot set.result := by
  obtain ⟨saves₀, store, hsync₀, hheld⟩ := hsaved
  obtain ⟨first, within, hsub, hwindow, hfrom⟩ := hfed.arrives
  obtain ⟨file_store, hnew, -⟩ := exists_new_of_inSync hsync₀ (life.readDir_perm disk)
  obtain ⟨node, hnode, hstate, hblocks, saves, hsync, hfiles⟩ := exists_run_keepsFiles
    env.main.libs env.main.build hslots hsub hwindow {}
    (hsync₀.reopen (life.readDir_perm disk) hnew) hheld (MainLoop.mem_deliveries hfrom)
    hfed.deliveries_written
  obtain ⟨s, log, hrun, rfl⟩ := exists_run_of_node
    (s := start env life.last_pull life.last_prune life.last_repair_poll file_store disk) hnode
  -- a set that completed is in the ring buffer at the end
  have hcomplete : ∀ set ∈ sets, Completes life set →
      (s.main.node.ring_buffer.contents set.id.slot).isSome := by
    intro set hset hmany
    obtain ⟨data, hdata, -⟩ := (hstate.setState set
      (mem_within_of_completes hslots hsub hfrom hset hmany)).served hmany
    rw [hdata, Option.isSome_some]
  have hlast : ∀ set ∈ sets, held set ∨ Completes life set → SavedLast saves set :=
    fun set hset hhas => hfiles set hset (hhas.imp_right (hcomplete set hset))
  have hget := get_eq hstate.window.inWindow.capacity_ne_zero
  refine ⟨s, ?_, ⟨saves, _, hsync, hlast⟩, fun set hset hhas => ?_⟩
  · rw [live, hnew, Option.bind_eq_bind, Option.bind_some, hrun]
    rfl
  · cases hcontents : s.main.node.ring_buffer.contents set.id.slot with
    | none =>
      -- found in the directory only
      exact .file _ (by rw [hget, hcontents]) (loadSlot_of_savedLast hsync (hlast set hset hhas))
        (by rw [deshred_flatten, set.deshredded])
    | some data =>
      have hwithin : set ∈ within := by
        by_contra hnot
        rw [hstate.absent _ fun other hother hsame =>
          hnot (hslots set hset other (hsub hother) hsame ▸ hother)] at hcontents
        cases hcontents
      obtain ⟨batch, rfl⟩ := hblocks set hwithin data hcontents
      exact .ring set.data_shreds batch set.deshredded (by rw [hget, hcontents, hlibs])

/-- **What some lives leave**: the blocks of all sets that completed in one of them. -/
theorem exists_diskAfter (hlibs : env.main.libs = rpc.toLibs) (hslots : OneForEachSlot sets)
    (hfed : ∀ life ∈ lives, Fed sets life) :
    ∃ disk, diskAfter env lives = some disk ∧
      SavedIn disk sets fun set => ∃ life ∈ lives, Completes life set := by
  induction lives using List.reverseRecOn with
  | nil => exact ⟨∅, rfl, [], .empty, inSync_empty rfl, by simp⟩
  | append_singleton lives life ih =>
    obtain ⟨disk, hdisk, hsaved⟩ := ih fun life' hlife => hfed life' (List.mem_append_left _ hlife)
    obtain ⟨s, hlive, ⟨saves, store, hsync, hlast⟩, -⟩ := exists_live hlibs hslots hsaved
      (hfed life (by simp))
    refine ⟨s.main.node.disk, ?_, saves, store, hsync, fun set hset hhas => hlast set hset ?_⟩
    · rw [diskAfter, foldlM_concat, ← diskAfter, hdisk]
      show (live env disk life).map _ = _
      rw [hlive]
      rfl
    · exact exists_completes_concat.mp hhas

/-- **Blocks outlive the node**: after any number of lives, each ended after any
event, the next one opens what they left, and answers for the accepted
transactions of every set that completed in one of them or in this one.  There
is one set for each slot over all lives, and no transaction that is accepted
comes after one that is not. -/
theorem lives_answer (hlibs : env.main.libs = rpc.toLibs)
    (hcodec : ∀ bytes tx, rpc.deserializeTx bytes = some tx → rpc.serializeTx tx = some bytes)
    (hslots : OneForEachSlot sets) (hround : ∀ set ∈ sets, ReadsBack rpc set.result.entries)
    (hfirst : ∀ set ∈ sets, AcceptedFirst rpc set.result.transactions)
    (hfed : ∀ life' ∈ lives ++ [life], Fed sets life') :
    ∃ disk s, diskAfter env lives = some disk ∧ live env disk life = some s ∧
      ∀ set ∈ sets, (∃ life' ∈ lives ++ [life], Completes life' set) →
        ∀ (req : JsonRpcRequest) (bytes : Bytes), req.method = "getTransactionByIndex" →
          req.slot = set.id.slot → set.result.transactions[req.txIndex]? = some bytes →
          (rpc.deserializeTx bytes).isSome →
          ∃ answer, jsonrpcHandler rpc s.main.node req =
              .ok (respond req.id (.ok (answer.toJson rpc))) ∧
            answer.transaction = bytes ∧
            Proves rpc.sha256 set.result.transactions req.txIndex answer := by
  obtain ⟨disk, hdisk, hsaved⟩ := exists_diskAfter hlibs hslots fun life' hlife =>
    hfed life' (List.mem_append_left _ hlife)
  obtain ⟨s, hlive, -, hblock⟩ := exists_live hlibs hslots hsaved (hfed life (by simp))
  refine ⟨disk, s, hdisk, hlive, fun set hset hhas req bytes hmethod hslot hbytes hparsed => ?_⟩
  exact exists_proves_of_hasBlock hcodec (hround set hset) (hfirst set hset)
    (hblock set hset (exists_completes_concat.mp hhas)) hmethod hslot hbytes hparsed

/-- The life in which the block of slot 7 arrives. -/
def sampleLife : Life Unit where
  readDir disk := disk.keys
  readDir_perm _ := .refl _
  last_pull := 0
  last_prune := 0
  last_repair_poll := 0
  events := sampleArrivals

/-- A life in which nothing happens. -/
def quietLife : Life Unit := { sampleLife with events := [] }

theorem fed_sampleLife : Fed [sampleSet] sampleLife where
  arrives := ⟨0, [sampleSet], List.Subset.refl _, oneWindow_sampleSet, fromSets_sampleArrivals⟩
  written packet peer io hmem := by
    rw [sampleLife, datagrams_sampleArrivals] at hmem
    rcases List.mem_cons.mp hmem with hping | hmem
    · cases hping
      exact ⟨rfl, rfl⟩
    · obtain ⟨row, -, hrow⟩ := List.mem_map.mp hmem
      cases hrow
      exact ⟨rfl, rfl⟩

theorem fed_quietLife : Fed [sampleSet] quietLife where
  arrives := ⟨0, [sampleSet], List.Subset.refl _, oneWindow_sampleSet,
    fun _ _ _ _ hmem => absurd hmem List.not_mem_nil⟩
  written _ _ _ hmem := absurd hmem List.not_mem_nil

/-- The 32 data shreds of slot 7 in the first life, and nothing in the next. -/
theorem lives_answer_sample : ∃ disk s, ∃ answer : TransactionAnswer,
    diskAfter sampleSystemEnv [sampleLife] = some disk ∧
      live sampleSystemEnv disk quietLife = some s ∧
      jsonrpcHandler (sampleRpc [[smallEntry [smallTx 4]]]) s.main.node
        ⟨"2.0", "getTransactionByIndex", paramsSeven, 1⟩ =
          .ok (respond 1 (.ok (answer.toJson (sampleRpc [[smallEntry [smallTx 4]]])))) ∧
      answer.transaction = smallTx 4 := by
  have hfed : ∀ life ∈ [sampleLife] ++ [quietLife], Fed [sampleSet] life := by
    intro life hlife
    rcases List.mem_append.mp hlife with hlife | hlife
    · rw [List.mem_singleton.mp hlife]
      exact fed_sampleLife
    · rw [List.mem_singleton.mp hlife]
      exact fed_quietLife
  obtain ⟨disk, s, hdisk, hlive, hanswers⟩ := @lives_answer [sampleSet] Unit Bytes
    (sampleRpc [[smallEntry [smallTx 4]]]) sampleSystemEnv quietLife [sampleLife] rfl
    (sampleRpc_codec _) oneWindow_sampleSet.distinct readsBack_sampleSet acceptedFirst_sampleSet
    hfed
  obtain ⟨answer, hanswer, htransaction, -⟩ := hanswers sampleSet (List.mem_singleton_self _)
    ⟨sampleLife, by simp, le_card_sampleArrivals⟩
    ⟨"2.0", "getTransactionByIndex", paramsSeven, 1⟩ (smallTx 4) rfl rfl rfl (by decide)
  exact ⟨disk, s, answer, hdisk, hlive, hanswer, htransaction⟩

end NodeSystem

end Sg32
