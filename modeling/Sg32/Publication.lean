/-
What is published for a slot over a run.

Batches are kept by slot and index of the erasure set, but the ring buffer and
the file store are kept by slot alone: recovering another set of a slot
replaces its block.

* `exists_recordRun` — every run that returns can be recorded;
* `Tracks` — the stores have the last publication of each slot;
* `run_neverLoses_iff` — nothing published is lost over a run exactly if each
  publication repeats the earlier ones of its slot.
-/
import Sg32.ServedTransactions

namespace Sg32

open Rust SlotRingBuffer

/-- A recovered erasure set that is published. -/
structure Publication where
  slot : UInt64
  result : DeshredResult
  saved : Bool
  deriving DecidableEq

/-- What processing a shred will publish. -/
def publicationOf (build : Build) (node : Node) (delivery : Delivery) :
    Checked (Option Publication) := do
  let batch ← (openBatch node.batches delivery.1).addShred build delivery.1
  let recovered ← batch.tryRecover
  match recovered with
  | none => pure none
  | some recovered => do
    let result ← deshredIntoTxs recovered
    pure (result.map fun result =>
      { slot := batch.slot
        result := result
        saved := delivery.2.dataWrite = .written ∧ delivery.2.metaWrite = .written })

/-- A run that notes its publications, the last one first. -/
def record (libs : Libs) (build : Build) (state : Node × List Publication) (delivery : Delivery) :
    Checked (Node × List Publication) := do
  let publication ← publicationOf build state.1 delivery
  let node ← processShred libs build delivery.2 state.1 delivery.1
  pure (node, publication.toList ++ state.2)

def recordRun (libs : Libs) (build : Build) (disk : Disk) (stats : PipelineStats)
    (deliveries : List Delivery) : Checked (Node × List Publication) :=
  deliveries.foldlM (record libs build) (Node.start .empty disk stats, [])

/-- What a recorded step does: it keeps stores and counts and notes nothing, or
it notes and counts what it publishes. -/
theorem record_cases_counts {libs : Libs} {build : Build} {node node' : Node}
    {delivery : Delivery} {published published' : List Publication}
    (hstep : record libs build (node, published) delivery = .ok (node', published')) :
    (KeepsStores node node' ∧ KeepsCounts node node' ∧ published' = published) ∨
      ∃ batch recovered result,
        Publishes libs build delivery.2 node batch recovered result node' ∧
          CountsRecovery node batch node' ∧
          published' =
            { slot := batch.slot
              result := result
              saved := delivery.2.dataWrite = .written ∧ delivery.2.metaWrite = .written } ::
              published := by
  obtain ⟨publication, hpublication, hstep⟩ := bind_eq_ok.mp hstep
  obtain ⟨node'', hprocess, hstep⟩ := bind_eq_ok.mp hstep
  cases hstep
  obtain ⟨batch, hadd, hcases⟩ := processShred_cases hprocess
  rw [publicationOf, hadd, ok_bind] at hpublication
  rcases hcases with ⟨hnone, hkeep, hcounts, -⟩ |
    ⟨recovered, hsome, -, ⟨hdeshred, hkeep, hcounts⟩ | ⟨result, hpub, hcounts⟩⟩
  · -- the batch waits for more shreds
    rw [hnone, ok_bind] at hpublication
    cases hpublication
    exact .inl ⟨hkeep, hcounts, rfl⟩
  · -- its data cannot be cut into transactions
    rw [hsome, ok_bind] at hpublication
    simp only [hdeshred, ok_bind] at hpublication
    cases hpublication
    exact .inl ⟨hkeep, hcounts, rfl⟩
  · rw [hsome, ok_bind] at hpublication
    simp only [hpub.deshred, ok_bind] at hpublication
    cases hpublication
    exact .inr ⟨batch, recovered, result, hpub, hcounts, rfl⟩

/-- What a recorded step does to the stores. -/
theorem record_cases {libs : Libs} {build : Build} {node node' : Node} {delivery : Delivery}
    {published published' : List Publication}
    (hstep : record libs build (node, published) delivery = .ok (node', published')) :
    (KeepsStores node node' ∧ published' = published) ∨
      ∃ batch recovered result,
        Publishes libs build delivery.2 node batch recovered result node' ∧
          published' =
            { slot := batch.slot
              result := result
              saved := delivery.2.dataWrite = .written ∧ delivery.2.metaWrite = .written } ::
              published := by
  rcases record_cases_counts hstep with
    ⟨hkeep, -, hpublished⟩ | ⟨batch, recovered, result, hpub, -, hpublished⟩
  · exact .inl ⟨hkeep, hpublished⟩
  · exact .inr ⟨batch, recovered, result, hpub, hpublished⟩

/-- A step that returns can be recorded. -/
theorem exists_record {libs : Libs} {build : Build} {node node' : Node} {delivery : Delivery}
    (h : processShred libs build delivery.2 node delivery.1 = .ok node')
    (published : List Publication) :
    ∃ published', record libs build (node, published) delivery = .ok (node', published') := by
  have hpublication : ∃ publication, publicationOf build node delivery = .ok publication := by
    obtain ⟨batch, hadd, hcases⟩ := processShred_eq_ok h
    rw [publicationOf, hadd, ok_bind]
    rcases hcases with ⟨hnone, -⟩ | ⟨recovered, hsome, -, ⟨hdeshred, -⟩ | ⟨result, hpub⟩⟩
    · rw [hnone]
      exact ⟨_, rfl⟩
    · simp only [hsome, hdeshred, ok_bind]
      exact ⟨_, rfl⟩
    · simp only [hsome, hpub.deshred, ok_bind]
      exact ⟨_, rfl⟩
  obtain ⟨publication, hpublication⟩ := hpublication
  simp only [record, hpublication, h, ok_bind]
  exact ⟨_, rfl⟩

/-- Every run that returns can be recorded. -/
theorem exists_recordRun {libs : Libs} {build : Build} {disk : Disk} {stats : PipelineStats}
    {deliveries : List Delivery} {node : Node}
    (hrun : run libs build (Node.start .empty disk stats) deliveries = .ok node) :
    ∃ published, recordRun libs build disk stats deliveries = .ok (node, published) := by
  -- induction over the deliveries, from any start
  have hfrom : ∀ (start : Node) (published : List Publication),
      run libs build start deliveries = .ok node → ∃ published',
        deliveries.foldlM (record libs build) (start, published) = .ok (node, published') := by
    clear hrun
    induction deliveries with
    | nil =>
      intro start published h
      cases h
      exact ⟨published, rfl⟩
    | cons delivery deliveries ih =>
      intro start published h
      rw [run, List.foldlM_cons] at h
      obtain ⟨mid, hmid, h⟩ := bind_eq_ok.mp h
      obtain ⟨published', hrecord⟩ := exists_record hmid published
      rw [List.foldlM_cons, hrecord, ok_bind]
      exact ih mid published' h
  exact hfrom _ [] hrun

variable {Tx : Type} {rpc : RpcLibs Tx} {build : Build} {disk : Disk} {stats : PipelineStats}
  {node : Node} {published : List Publication}

/-- The raw transactions that the ring buffer serves for a slot; a block
without transactions is not served. -/
def ringTransactions (rpc : RpcLibs Tx) (node : Node) (slot : UInt64) :
    Checked (Option (List Bytes)) := do
  let data ← node.ring_buffer.get slot
  pure (do
    let data ← data
    let entries ← rpc.deserializeEntries data.entries
    some (entries.flatMap Entry.transactions))

/-- The raw transactions that the file store serves for a slot. -/
def fileTransactions (node : Node) (slot : UInt64) : Checked (Option (List Bytes)) :=
  match node.file_store.loadSlot node.disk slot with
  | none => pure none
  | some raw => do
    let result ← deshredIntoTxs [raw]
    pure (result.map DeshredResult.transactions)

/-- No published transaction is missing from the block of its slot: the file
store has it, and so has the ring buffer as long as it has the slot. -/
structure KeepsAll (rpc : RpcLibs Tx) (node : Node) (published : List Publication) : Prop where
  ring : ∀ p ∈ published, ∀ data, node.ring_buffer.get p.slot = .ok (some data) →
    ∃ txs, ringTransactions rpc node p.slot = .ok (some txs) ∧ p.result.transactions ⊆ txs
  file : ∀ p ∈ published,
    ∃ txs, fileTransactions node p.slot = .ok (some txs) ∧ p.result.transactions ⊆ txs

/-- The last publication of a slot. -/
def lastOf (published : List Publication) (slot : UInt64) : Option Publication :=
  published.find? fun p => p.slot = slot

/-- Each publication repeats all transactions published for its slot before. -/
def Repeats (published : List Publication) : Prop :=
  published.Pairwise fun later earlier =>
    earlier.slot = later.slot → earlier.result.transactions ⊆ later.result.transactions

/-! ### The stores follow the last publication -/

/-- The stores have the last publication of each slot. -/
structure Tracks (rpc : RpcLibs Tx) (node : Node) (published : List Publication) : Prop where
  capacity_ne_zero : node.ring_buffer.capacity ≠ 0
  wellNamed : node.file_store.WellNamed
  deshredded : ∀ p ∈ published, p.result.transactions = p.result.entries.flatMap Entry.transactions
  ring : ∀ slot data, node.ring_buffer.stored slot = some data →
    ∃ p, lastOf published slot = some p ∧
      data.entries = (rpc.serializeEntries p.result.entries).getD []
  file : ∀ slot p, lastOf published slot = some p →
    ∃ raw, node.file_store.loadSlot node.disk slot = some raw ∧
      deshredIntoTxs [raw] = .ok (some p.result)

theorem tracks_start : Tracks rpc (Node.start .empty disk stats) [] where
  capacity_ne_zero := show (500 : UInt64) ≠ 0 by decide
  wellNamed := FlatFileStore.wellNamed_empty
  deshredded p hp := by cases hp
  ring slot data h := by
    rw [Node.start, stored_new] at h
    cases h
  file slot p h := by cases h

theorem lastOf_cons_self (p : Publication) : lastOf (p :: published) p.slot = some p := by
  rw [lastOf, List.find?_cons_of_pos (by simp)]

theorem lastOf_cons_ne {p : Publication} {slot : UInt64} (h : slot ≠ p.slot) :
    lastOf (p :: published) slot = lastOf published slot := by
  rw [lastOf, List.find?_cons_of_neg (by simpa using h.symm), lastOf]

/-- The pieces of a payload say the same as the whole. -/
theorem deshred_flatten (payloads : List Bytes) :
    deshredIntoTxs [payloads.flatten] = deshredIntoTxs payloads := by
  have hflat : [payloads.flatten].flatten = payloads.flatten := by simp
  simp only [deshredIntoTxs, hflat]

theorem tracks_kept {node' : Node} (h : Tracks rpc node published)
    (hkeep : KeepsStores node node') : Tracks rpc node' published := by
  refine ⟨?_, ?_, h.deshredded, ?_, ?_⟩
  · rw [hkeep.ring_buffer]
    exact h.capacity_ne_zero
  · rw [hkeep.file_store]
    exact h.wellNamed
  · rw [hkeep.ring_buffer]
    exact h.ring
  · rw [hkeep.file_store, hkeep.disk]
    exact h.file

/-- A publication that is saved becomes the last one of its slot. -/
theorem tracks_published {io : FileIo} {node' : Node} {batch : FecBatch} {recovered : List Bytes}
    {result : DeshredResult} (h : Tracks rpc node published)
    (hpub : Publishes rpc.toLibs build io node batch recovered result node')
    (hdata : io.dataWrite = .written) (hmeta : io.metaWrite = .written) (saved : Bool) :
    Tracks rpc node' ({ slot := batch.slot, result := result, saved := saved } :: published) := by
  set p : Publication := { slot := batch.slot, result := result, saved := saved } with hp
  obtain ⟨-, hcapacity, -⟩ := put_eq_ok hpub.put
  have hsave : (node.file_store.saveSlot node.disk batch.slot recovered.flatten io.dataWrite
      io.metaWrite).2.2 = true := by
    rw [hdata, hmeta]
    rfl
  have hload := FlatFileStore.loadSlot_saveSlot h.wellNamed hsave
  rw [← hpub.file_store, ← hpub.disk] at hload
  refine ⟨hcapacity ▸ h.capacity_ne_zero, ?_, ?_, ?_, ?_⟩
  · rw [hpub.file_store]
    exact FlatFileStore.wellNamed_saveSlot h.wellNamed
  · intro q hq
    rcases List.mem_cons.mp hq with rfl | hold
    · exact transactions_of_deshred hpub.deshred
    · exact h.deshredded q hold
  · -- the ring buffer has the new block or an older one
    intro slot data hstored
    rcases stored_put_cases hpub.put hstored with ⟨rfl, rfl⟩ | ⟨hne, hold⟩
    · exact ⟨p, lastOf_cons_self p, rfl⟩
    · obtain ⟨q, hlast, hentries⟩ := h.ring slot data hold
      have hslot : slot ≠ p.slot := hne
      exact ⟨q, (lastOf_cons_ne hslot).trans hlast, hentries⟩
  · -- so has the file store
    intro slot q hlast
    by_cases hslot : slot = p.slot
    · rw [hslot, lastOf_cons_self, Option.some.injEq] at hlast
      subst hlast
      refine ⟨recovered.flatten, ?_, ?_⟩
      · rw [hload, hslot, if_pos rfl]
      · rw [deshred_flatten, hpub.deshred]
    · rw [lastOf_cons_ne hslot] at hlast
      obtain ⟨raw, hraw, hresult⟩ := h.file slot q hlast
      exact ⟨raw, by rw [hload, if_neg hslot, hraw], hresult⟩

/-- A step publishes at most one set, and the stores keep track of it. -/
theorem step_tracks {delivery : Delivery} {node' : Node} {published' : List Publication}
    (hstep : record rpc.toLibs build (node, published) delivery = .ok (node', published'))
    (hsaved : ∀ p ∈ published', p.saved = true) (h : Tracks rpc node published) :
    Tracks rpc node' published' := by
  rcases record_cases hstep with ⟨hkeep, rfl⟩ | ⟨batch, recovered, result, hpub, rfl⟩
  · exact tracks_kept h hkeep
  · have hwritten := of_decide_eq_true (hsaved _ List.mem_cons_self)
    exact tracks_published h hpub hwritten.1 hwritten.2 _

/-- A step adds at most one publication. -/
theorem record_published {libs : Libs} {delivery : Delivery} {node' : Node}
    {published' : List Publication}
    (hstep : record libs build (node, published) delivery = .ok (node', published')) :
    published' = published ∨ ∃ p, published' = p :: published := by
  rcases record_cases hstep with ⟨-, rfl⟩ | ⟨batch, recovered, result, -, rfl⟩
  · exact .inl rfl
  · exact .inr ⟨_, rfl⟩

/-! ### What the stores serve -/

theorem ringTransactions_of_tracks (h : Tracks rpc node published)
    (hround : ∀ p ∈ published, ReadsBack rpc p.result.entries) {slot : UInt64} {data : SlotData}
    (hdata : node.ring_buffer.get slot = .ok (some data)) :
    ∃ last, lastOf published slot = some last ∧
      ringTransactions rpc node slot = .ok (some last.result.transactions) := by
  have hstored : node.ring_buffer.stored slot = some data := by
    rw [get_eq h.capacity_ne_zero] at hdata
    exact stored_of_contents (Except.ok.inj hdata)
  obtain ⟨last, hlast, hentries⟩ := h.ring slot data hstored
  have hmem := List.mem_of_find?_eq_some hlast
  obtain ⟨bytes, hwrite, hread⟩ := hround last hmem
  rw [hwrite, Option.getD_some] at hentries
  refine ⟨last, hlast, ?_⟩
  rw [ringTransactions, hdata, ok_bind, h.deshredded last hmem]
  simp only [Option.bind_eq_bind, Option.bind_some, hentries, hread]
  rfl

theorem fileTransactions_of_tracks (h : Tracks rpc node published) {slot : UInt64}
    {last : Publication} (hlast : lastOf published slot = some last) :
    fileTransactions node slot = .ok (some last.result.transactions) := by
  obtain ⟨raw, hraw, hresult⟩ := h.file slot last hlast
  rw [fileTransactions, hraw]
  simp only [hresult, ok_bind]
  rfl

theorem exists_lastOf {p : Publication} (hp : p ∈ published) :
    ∃ last, lastOf published p.slot = some last := by
  have hsome : (lastOf published p.slot).isSome := by
    rw [lastOf, List.find?_isSome]
    exact ⟨p, hp, by simp⟩
  exact Option.isSome_iff_exists.mp hsome

/-- When publications repeat, the last one of a slot has everything. -/
theorem subset_lastOf (h : Repeats published) {p last : Publication} (hp : p ∈ published)
    (hlast : lastOf published p.slot = some last) :
    p.result.transactions ⊆ last.result.transactions := by
  induction published with
  | nil => cases hp
  | cons first published ih =>
    obtain ⟨hfirst, hrest⟩ := List.pairwise_cons.mp h
    by_cases hslot : p.slot = first.slot
    · rw [hslot, lastOf_cons_self, Option.some.injEq] at hlast
      subst hlast
      rcases List.mem_cons.mp hp with rfl | hmem
      · exact List.Subset.refl _
      · exact hfirst p hmem hslot
    · rw [lastOf_cons_ne hslot] at hlast
      rcases List.mem_cons.mp hp with rfl | hmem
      · exact absurd rfl hslot
      · exact ih hrest hmem hlast

theorem keepsAll_of_repeats (h : Tracks rpc node published)
    (hround : ∀ p ∈ published, ReadsBack rpc p.result.entries) (hrepeats : Repeats published) :
    KeepsAll rpc node published where
  ring p hp data hdata := by
    obtain ⟨last, hlast, hserved⟩ := ringTransactions_of_tracks h hround hdata
    exact ⟨_, hserved, subset_lastOf hrepeats hp hlast⟩
  file p hp := by
    obtain ⟨last, hlast⟩ := exists_lastOf hp
    exact ⟨_, fileTransactions_of_tracks h hlast, subset_lastOf hrepeats hp hlast⟩

/-- After a publication the file store has its transactions only. -/
theorem subset_of_keepsAll {p : Publication} (h : Tracks rpc node (p :: published))
    (hkeeps : KeepsAll rpc node (p :: published)) {earlier : Publication}
    (hearlier : earlier ∈ published) (hslot : earlier.slot = p.slot) :
    earlier.result.transactions ⊆ p.result.transactions := by
  obtain ⟨txs, hserved, hsub⟩ := hkeeps.file earlier (List.mem_cons_of_mem p hearlier)
  rw [hslot, fileTransactions_of_tracks h (lastOf_cons_self p)] at hserved
  cases hserved
  exact hsub

/-! ### Runs -/

theorem recordRun_append {libs : Libs} {deliveries : List Delivery} {delivery : Delivery}
    {state : Node × List Publication}
    (h : recordRun libs build disk stats (deliveries ++ [delivery]) = .ok state) :
    ∃ before, recordRun libs build disk stats deliveries = .ok before ∧
      record libs build before delivery = .ok state := by
  rw [recordRun] at h
  exact foldlM_concat_eq_ok.mp h

theorem run_tracks {deliveries : List Delivery}
    (hrun : recordRun rpc.toLibs build disk stats deliveries = .ok (node, published))
    (hsaved : ∀ p ∈ published, p.saved = true) : Tracks rpc node published := by
  induction deliveries using List.reverseRecOn generalizing node published with
  | nil =>
    cases hrun
    exact tracks_start
  | append_singleton deliveries delivery ih =>
    obtain ⟨⟨before, published₀⟩, hbefore, hstep⟩ := recordRun_append hrun
    refine step_tracks hstep hsaved (ih hbefore fun p hp => hsaved p ?_)
    rcases record_published hstep with rfl | ⟨q, rfl⟩
    · exact hp
    · exact List.mem_cons_of_mem q hp

/-- Nothing published is missing in any state of the run. -/
def NeverLoses (rpc : RpcLibs Tx) (build : Build) (disk : Disk) (stats : PipelineStats)
    (deliveries : List Delivery) : Prop :=
  ∀ front, front <+: deliveries → ∀ node published,
    recordRun rpc.toLibs build disk stats front = .ok (node, published) →
      KeepsAll rpc node published

theorem neverLoses_append {deliveries : List Delivery} {delivery : Delivery}
    (hrun : recordRun rpc.toLibs build disk stats (deliveries ++ [delivery]) =
      .ok (node, published)) :
    NeverLoses rpc build disk stats (deliveries ++ [delivery]) ↔
      NeverLoses rpc build disk stats deliveries ∧ KeepsAll rpc node published := by
  constructor
  · intro h
    refine ⟨fun front hfront => h front (hfront.trans (List.prefix_append _ _)), ?_⟩
    exact h _ List.prefix_rfl node published hrun
  · rintro ⟨hbefore, hkeeps⟩ front hfront node' published' hrun'
    rcases List.prefix_concat_iff.mp hfront with rfl | hshort
    · cases hrun.symm.trans hrun'
      exact hkeeps
    · exact hbefore front hshort node' published' hrun'

/-- **When no erasure set is lost**: over a run in which every save succeeds,
every state serves all transactions published so far exactly if each
publication repeats the earlier ones of its slot. -/
theorem run_neverLoses_iff {deliveries : List Delivery}
    (hrun : recordRun rpc.toLibs build disk stats deliveries = .ok (node, published))
    (hsaved : ∀ p ∈ published, p.saved = true)
    (hround : ∀ p ∈ published, ReadsBack rpc p.result.entries) :
    NeverLoses rpc build disk stats deliveries ↔ Repeats published := by
  -- induction on the run, from its end
  induction deliveries using List.reverseRecOn generalizing node published with
  | nil =>
    cases hrun
    refine ⟨fun _ => List.Pairwise.nil, fun _ front hfront node published hrun => ?_⟩
    obtain rfl := List.prefix_nil.mp hfront
    cases hrun
    exact keepsAll_of_repeats tracks_start (by simp) List.Pairwise.nil
  | append_singleton deliveries delivery ih =>
    obtain ⟨⟨before, published₀⟩, hbefore, hstep⟩ := recordRun_append hrun
    have htracks := run_tracks hrun hsaved
    rw [neverLoses_append hrun]
    rcases record_published hstep with rfl | ⟨p, rfl⟩
    · rw [ih hbefore hsaved hround]
      exact ⟨fun h => h.1, fun h => ⟨h, keepsAll_of_repeats htracks hround h⟩⟩
    · rw [ih hbefore (fun q hq => hsaved q (List.mem_cons_of_mem p hq))
        fun q hq => hround q (List.mem_cons_of_mem p hq)]
      constructor
      · rintro ⟨hrepeats, hkeeps⟩
        exact List.pairwise_cons.mpr
          ⟨fun earlier hmem hslot => subset_of_keepsAll htracks hkeeps hmem hslot, hrepeats⟩
      · intro hrepeats
        exact ⟨(List.pairwise_cons.mp hrepeats).2, keepsAll_of_repeats htracks hround hrepeats⟩

/-- Two erasure sets of slot 7 with these transactions. -/
def twoSets (first second : List Bytes) : List Delivery :=
  oneShred 7 0 (smallStream first) ++ oneShred 7 1 (smallStream second)

def twoSetsRpc (first second : List Bytes) : RpcLibs Bytes :=
  sampleRpc [[smallEntry first], [smallEntry second]]

/-- A saved publication of slot 7. -/
def publishedSeven (txs : List Bytes) : Publication where
  slot := 7
  result := smallResult txs
  saved := true

/-- What a run published. -/
theorem exists_node_of_published (libs : Libs) (build : Build) (disk : Disk)
    (stats : PipelineStats) (deliveries : List Delivery) (published : List Publication)
    (h : (recordRun libs build disk stats deliveries).map Prod.snd = .ok published) :
    ∃ node, recordRun libs build disk stats deliveries = .ok (node, published) := by
  cases hrun : recordRun libs build disk stats deliveries with
  | error panic =>
    rw [hrun] at h
    cases h
  | ok state =>
    rw [hrun] at h
    cases h
    exact ⟨state.1, rfl⟩

/-- The second set repeats the transaction of the first. -/
theorem run_neverLoses_sample :
    Repeats [publishedSeven [smallTx 4, smallTx 5], publishedSeven [smallTx 4]] ∧
      NeverLoses (twoSetsRpc [smallTx 4] [smallTx 4, smallTx 5]) .debug ∅ {}
        (twoSets [smallTx 4] [smallTx 4, smallTx 5]) := by
  have hrepeats : Repeats [publishedSeven [smallTx 4, smallTx 5], publishedSeven [smallTx 4]] := by
    refine List.pairwise_pair.mpr fun _ => ?_
    exact List.cons_subset.mpr ⟨List.mem_cons_self, List.nil_subset _⟩
  obtain ⟨node, hrun⟩ := exists_node_of_published
    (twoSetsRpc [smallTx 4] [smallTx 4, smallTx 5]).toLibs .debug ∅ {}
    (twoSets [smallTx 4] [smallTx 4, smallTx 5])
    [publishedSeven [smallTx 4, smallTx 5], publishedSeven [smallTx 4]] (by decide +kernel)
  refine ⟨hrepeats, (run_neverLoses_iff hrun (by decide +kernel) ?_).mpr hrepeats⟩
  intro p hp
  rcases List.mem_cons.mp hp with rfl | hp
  · exact ⟨_, rfl, by decide +kernel⟩
  · rw [List.mem_singleton.mp hp]
    exact ⟨_, rfl, by decide +kernel⟩

/-- The second set has another transaction. -/
theorem run_loses :
    ¬ ∀ (rpc : RpcLibs Bytes) (build : Build) (deliveries : List Delivery) (node : Node)
        (published : List Publication),
      recordRun rpc.toLibs build ∅ {} deliveries = .ok (node, published) →
      (∀ p ∈ published, p.saved = true) → (∀ p ∈ published, ReadsBack rpc p.result.entries) →
      KeepsAll rpc node published := by
  intro hclaim
  obtain ⟨node, hrun⟩ := exists_node_of_published
    (twoSetsRpc [smallTx 4] [smallTx 5]).toLibs .debug ∅ {}
    (twoSets [smallTx 4] [smallTx 5]) [publishedSeven [smallTx 5], publishedSeven [smallTx 4]]
    (by decide +kernel)
  have hsaved : ∀ p ∈ [publishedSeven [smallTx 5], publishedSeven [smallTx 4]],
      p.saved = true := by decide +kernel
  have hkeeps := hclaim (twoSetsRpc [smallTx 4] [smallTx 5]) .debug _ node _ hrun hsaved
    fun p hp => by
      rcases List.mem_cons.mp hp with rfl | hp
      · exact ⟨_, rfl, by decide +kernel⟩
      · rw [List.mem_singleton.mp hp]
        exact ⟨_, rfl, by decide +kernel⟩
  have hsub := subset_of_keepsAll (run_tracks hrun hsaved) hkeeps (List.mem_singleton_self _) rfl
  exact absurd (hsub List.mem_cons_self) (by decide +kernel)

end Sg32
