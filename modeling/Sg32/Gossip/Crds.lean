/-
The table of gossiped values (`crds.rs`, `crds_data.rs`).

The table has one entry for each node, whatever kind of value it is: a value
replaces the entry of its node when its wallclock is larger.  Peers are read
off the entries that happen to be contact infos.

* `lookup_mergeAll` — the entry of a node is the newest of its values;
* `mergeAll_converges` — the order of arrival matters only among values of one
  node with one wallclock;
* `mem_getContactInfos` — a peer is listed when its entry is a contact info
  with an address;
* `peers_listed_iff` — the newest contact info of a node is listed exactly if
  no other kind of value of the node displaces it.
-/
import Sg32.Foundation.NewestWins
import Sg32.Gossip.ContactInfo

namespace Sg32

open Rust

/-! ### Values -/

structure LegacyContactInfo where
  id : Pubkey
  gossip : SocketAddr
  wallclock : UInt64
  rest : Bytes
  deriving DecidableEq

structure Vote where
  «from» : Pubkey
  wallclock : UInt64
  slot : Option UInt64
  rest : Bytes
  deriving DecidableEq

/-- The kinds of value of which only node and wallclock are looked at. -/
structure Record where
  node : Pubkey
  wallclock : UInt64
  rest : Bytes
  deriving DecidableEq

structure RestartLastVotedForkSlots extends Record where
  last_voted_slot : UInt64
  deriving DecidableEq

structure RestartHeaviestFork extends Record where
  last_slot : UInt64
  deriving DecidableEq

inductive CrdsData
  | legacyContactInfo (info : LegacyContactInfo)
  | vote (index : UInt8) (vote : Vote)
  | lowestSlot (index : UInt8) (slots : Record)
  | legacySnapshotHashes (hashes : Record)
  | accountsHashes (hashes : Record)
  | epochSlots (index : UInt8) (slots : Record)
  | legacyVersion (version : Record)
  | version (version : Record)
  | nodeInstance (node : Record)
  | duplicateShred (index : UInt16) (shred : Record)
  | snapshotHashes (hashes : Record)
  | contactInfo (info : ContactInfo)
  | restartLastVotedForkSlots (slots : RestartLastVotedForkSlots)
  | restartHeaviestFork (fork : RestartHeaviestFork)
  deriving DecidableEq

structure CrdsValue where
  signature : Signature
  data : CrdsData
  hash : Vector UInt8 32
  deriving DecidableEq

namespace CrdsValue

def pubkey (value : CrdsValue) : Pubkey :=
  match value.data with
  | .legacyContactInfo info => info.id
  | .vote _ vote => vote.from
  | .lowestSlot _ slots => slots.node
  | .legacySnapshotHashes hashes => hashes.node
  | .accountsHashes hashes => hashes.node
  | .epochSlots _ slots => slots.node
  | .legacyVersion version => version.node
  | .version version => version.node
  | .nodeInstance node => node.node
  | .duplicateShred _ shred => shred.node
  | .snapshotHashes hashes => hashes.node
  | .contactInfo info => info.pubkey
  | .restartLastVotedForkSlots slots => slots.node
  | .restartHeaviestFork fork => fork.node

def wallclock (value : CrdsValue) : UInt64 :=
  match value.data with
  | .legacyContactInfo info => info.wallclock
  | .vote _ vote => vote.wallclock
  | .lowestSlot _ slots => slots.wallclock
  | .legacySnapshotHashes hashes => hashes.wallclock
  | .accountsHashes hashes => hashes.wallclock
  | .epochSlots _ slots => slots.wallclock
  | .legacyVersion version => version.wallclock
  | .version version => version.wallclock
  | .nodeInstance node => node.wallclock
  | .duplicateShred _ shred => shred.wallclock
  | .snapshotHashes hashes => hashes.wallclock
  | .contactInfo info => info.wallclock
  | .restartLastVotedForkSlots slots => slots.wallclock
  | .restartHeaviestFork fork => fork.wallclock

/-- The gossip address that a value names, as the table reads it. -/
def gossipAddr (value : CrdsValue) : Option SocketAddr :=
  match value.data with
  | .contactInfo info => info.gossipAddr
  | .legacyContactInfo info => some info.gossip
  | _ => none

end CrdsValue

/-! ### The table -/

structure CrdsTable where
  entries : AList fun _ : Pubkey => CrdsValue

namespace CrdsTable

def new : CrdsTable := ⟨∅⟩

/-- Merge a value; the flag says whether it was new or newer. -/
def merge (table : CrdsTable) (value : CrdsValue) : CrdsTable × Bool :=
  let key := value.pubkey
  let incoming := value.wallclock
  match table.entries.lookup key with
  | some existing =>
    if existing.wallclock ≥ incoming then (table, false)
    else (⟨table.entries.insert key value⟩, true)
  | none => (⟨table.entries.insert key value⟩, true)

def getContactInfos (table : CrdsTable) : List (Pubkey × SocketAddr) :=
  table.entries.entries.filterMap fun entry =>
    entry.2.gossipAddr.map fun addr => (entry.1, addr)

def len (table : CrdsTable) : ℕ := table.entries.keys.length

def allContactInfos (table : CrdsTable) : List (Pubkey × ContactInfo) :=
  table.entries.entries.filterMap fun entry =>
    match entry.2.data with
    | .contactInfo info => some (entry.1, info)
    | _ => none

/-- The slot that a vote or a restart record names. -/
def slotOf (value : CrdsValue) : Option UInt64 :=
  match value.data with
  | .vote _ vote => vote.slot
  | .restartLastVotedForkSlots slots => some slots.last_voted_slot
  | .restartHeaviestFork fork => some fork.last_slot
  | _ => none

def getHighestSlot (table : CrdsTable) : Option UInt64 :=
  (table.entries.entries.filterMap fun entry => slotOf entry.2).max?

/-- The table after a sequence of merges. -/
def mergeAll (values : List CrdsValue) : CrdsTable :=
  values.foldl (fun table value => (table.merge value).1) new

/-! ### Entries -/

/-- The wallclock, as a number. -/
def stamp (value : CrdsValue) : ℕ := value.wallclock.toNat

theorem stamp_lt_iff {v w : CrdsValue} : stamp v < stamp w ↔ v.wallclock < w.wallclock :=
  UInt64.lt_iff_toNat_lt.symm

theorem stamp_le_iff {v w : CrdsValue} : stamp v ≤ stamp w ↔ v.wallclock ≤ w.wallclock :=
  UInt64.le_iff_toNat_le.symm

/-- Merging is keeping the newest value of a node. -/
theorem merge_eq (table : CrdsTable) (value : CrdsValue) :
    table.merge value =
      (⟨(NewestWins.merge stamp CrdsValue.pubkey table.entries value).1⟩,
        (NewestWins.merge stamp CrdsValue.pubkey table.entries value).2) := by
  rw [merge, NewestWins.merge]
  cases table.entries.lookup value.pubkey with
  | none => rfl
  | some existing =>
    simp only [ge_iff_le, stamp_le_iff]
    split_ifs <;> rfl

theorem entries_mergeAll (values : List CrdsValue) :
    (mergeAll values).entries =
      NewestWins.mergeAll stamp CrdsValue.pubkey values := by
  induction values using List.reverseRecOn with
  | nil => rfl
  | append_singleton values value ih =>
    simp only [mergeAll, NewestWins.mergeAll, List.foldl_append, List.foldl_cons, List.foldl_nil]
      at ih ⊢
    rw [merge_eq, ih]

theorem lookup_mergeAll (values : List CrdsValue) (pk : Pubkey) :
    (mergeAll values).entries.lookup pk =
      (values.filter fun value => value.pubkey = pk).argmax stamp := by
  rw [entries_mergeAll, NewestWins.lookup_mergeAll]

theorem mem_getContactInfos {table : CrdsTable} {pk : Pubkey} {addr : SocketAddr} :
    (pk, addr) ∈ table.getContactInfos ↔
      ∃ value, table.entries.lookup pk = some value ∧ value.gossipAddr = some addr := by
  rw [getContactInfos, List.mem_filterMap]
  constructor
  · rintro ⟨⟨key, value⟩, hmem, hvalue⟩
    obtain ⟨addr', haddr, heq⟩ := Option.map_eq_some_iff.mp hvalue
    cases heq
    exact ⟨value, AList.mem_lookup_iff.mpr hmem, haddr⟩
  · rintro ⟨value, hlookup, haddr⟩
    exact ⟨⟨pk, value⟩, AList.mem_lookup_iff.mp hlookup, by simp [haddr]⟩

/-! ### Peers -/

/-- The value comes from a contact info of either kind. -/
def isContact (value : CrdsValue) : Bool :=
  match value.data with
  | .contactInfo _ => true
  | .legacyContactInfo _ => true
  | _ => false

theorem isContact_of_gossipAddr {value : CrdsValue} {addr : SocketAddr}
    (h : value.gossipAddr = some addr) : isContact value = true := by
  unfold CrdsValue.gossipAddr at h
  unfold isContact
  split at h <;> simp_all

/-- The first contact info of largest wallclock that its node published. -/
structure NewestContact (before : List CrdsValue) (value : CrdsValue) (after : List CrdsValue) :
    Prop where
  contact : isContact value = true
  before : ∀ v ∈ before, v.pubkey = value.pubkey → isContact v = true →
    v.wallclock < value.wallclock
  after : ∀ v ∈ after, v.pubkey = value.pubkey → isContact v = true →
    v.wallclock ≤ value.wallclock

/-- No other kind of value of the node is newer, and none that came before is
as new. -/
structure NotDisplaced (before : List CrdsValue) (value : CrdsValue) (after : List CrdsValue) :
    Prop where
  before : ∀ v ∈ before, v.pubkey = value.pubkey → isContact v = false →
    v.wallclock < value.wallclock
  after : ∀ v ∈ after, v.pubkey = value.pubkey → isContact v = false →
    v.wallclock ≤ value.wallclock

theorem exists_newestContact {values : List CrdsValue} {pk : Pubkey}
    (h : ∃ value ∈ values, isContact value = true ∧ value.pubkey = pk) :
    ∃ before value after, values = before ++ value :: after ∧ value.pubkey = pk ∧
      NewestContact before value after := by
  obtain ⟨before, value, after, hsplit, ⟨hcontact, rfl⟩, hnewest⟩ :=
    NewestWins.exists_newestOf_filter stamp
      (p := fun value => isContact value = true ∧ value.pubkey = pk) h
  refine ⟨before, value, after, hsplit, rfl, hcontact, ?_, ?_⟩
  · intro v hv hpubkey hcontact
    exact stamp_lt_iff.mp <|
      hnewest.before v (List.mem_filter.mpr ⟨hv, by simp [hcontact, hpubkey]⟩)
  · intro v hv hpubkey hcontact
    exact stamp_le_iff.mp <|
      hnewest.after v (List.mem_filter.mpr ⟨hv, by simp [hcontact, hpubkey]⟩)

/-- The entry of a node is its newest contact info, or no contact info. -/
theorem lookup_isContact_iff {before after : List CrdsValue} {value : CrdsValue}
    (h : NewestContact before value after) :
    (∃ entry, (mergeAll (before ++ value :: after)).entries.lookup value.pubkey = some entry ∧
      isContact entry = true) ↔ NotDisplaced before value after := by
  -- the table keeps, of the values of one node, the first of the newest
  have hfilter : (before ++ value :: after).filter (fun v => v.pubkey = value.pubkey) =
      before.filter (fun v => v.pubkey = value.pubkey) ++
        value :: after.filter (fun v => v.pubkey = value.pubkey) := by
    rw [List.filter_append, List.filter_cons_of_pos (by simp)]
  -- among the contact infos of the node that is `value`
  have hnewest : NewestWins.NewestOf stamp
      ((before.filter fun v => v.pubkey = value.pubkey).filter fun v => isContact v = true) value
      ((after.filter fun v => v.pubkey = value.pubkey).filter fun v => isContact v = true) := by
    constructor
    · intro v hv
      simp only [List.mem_filter, decide_eq_true_eq] at hv
      exact stamp_lt_iff.mpr (h.before v hv.1.1 hv.1.2 hv.2)
    · intro v hv
      simp only [List.mem_filter, decide_eq_true_eq] at hv
      exact stamp_le_iff.mpr (h.after v hv.1.1 hv.1.2 hv.2)
  rw [lookup_mergeAll, hfilter,
    NewestWins.argmax_eq_some_iff_of_filter (p := fun v => isContact v = true) h.contact hnewest]
  simp only [List.mem_filter, decide_eq_true_eq, Bool.not_eq_true, and_imp, stamp_lt_iff,
    stamp_le_iff]
  exact ⟨fun ⟨hbefore, hafter⟩ => ⟨hbefore, hafter⟩, fun hnot => ⟨hnot.before, hnot.after⟩⟩

theorem mem_getContactInfos_iff {before after : List CrdsValue} {value : CrdsValue}
    (h : NewestContact before value after) {addr : SocketAddr}
    (haddr : value.gossipAddr = some addr) :
    (value.pubkey, addr) ∈ (mergeAll (before ++ value :: after)).getContactInfos ↔
      NotDisplaced before value after := by
  rw [mem_getContactInfos]
  constructor
  · rintro ⟨entry, hlookup, hentry⟩
    exact (lookup_isContact_iff h).mp ⟨entry, hlookup, isContact_of_gossipAddr hentry⟩
  · intro hnot
    refine ⟨value, ?_, haddr⟩
    rw [lookup_mergeAll, List.filter_append, List.filter_cons_of_pos (by simp)]
    -- nothing of the node is newer, contact info or not
    refine NewestWins.argmax_of_newestOf ⟨fun v hv => ?_, fun v hv => ?_⟩
    · simp only [List.mem_filter, decide_eq_true_eq] at hv
      cases hcontact : isContact v with
      | true => exact stamp_lt_iff.mpr (h.before v hv.1 hv.2 hcontact)
      | false => exact stamp_lt_iff.mpr (hnot.before v hv.1 hv.2 hcontact)
    · simp only [List.mem_filter, decide_eq_true_eq] at hv
      cases hcontact : isContact v with
      | true => exact stamp_le_iff.mpr (h.after v hv.1 hv.2 hcontact)
      | false => exact stamp_le_iff.mpr (hnot.after v hv.1 hv.2 hcontact)

/-- **Which peers are listed**: after any merges, the newest contact info of a
node is listed, when it has an address, exactly if no other kind of value of
the node displaces it. -/
theorem peers_listed_iff {values : List CrdsValue} {pk : Pubkey}
    (h : ∃ value ∈ values, isContact value = true ∧ value.pubkey = pk) :
    ∃ before value after, values = before ++ value :: after ∧ value.pubkey = pk ∧
      NewestContact before value after ∧
      ∀ addr, value.gossipAddr = some addr →
        ((pk, addr) ∈ (mergeAll values).getContactInfos ↔ NotDisplaced before value after) := by
  obtain ⟨before, value, after, rfl, rfl, hnewest⟩ := exists_newestContact h
  exact ⟨before, value, after, rfl, rfl, hnewest, fun addr => mem_getContactInfos_iff hnewest⟩

/-- A contact info of a node. -/
def sampleContact (pubkey : Pubkey) (wallclock : UInt64) : CrdsValue where
  signature := Vector.replicate 64 0
  data := .contactInfo
    { pubkey := pubkey
      wallclock := wallclock
      addrs := [.v4 ⟨#[127, 0, 0, 1], rfl⟩]
      sockets := [{ key := 0, index := 0, offset := 8001 }]
      rest := [] }
  hash := Vector.replicate 32 0

/-- A vote of a node. -/
def sampleVote (pubkey : Pubkey) (wallclock : UInt64) : CrdsValue where
  signature := Vector.replicate 64 0
  data := .vote 0 { «from» := pubkey, wallclock := wallclock, slot := some 42, rest := [] }
  hash := Vector.replicate 32 0

def samplePubkey : Pubkey := Vector.replicate 32 1

theorem peers_listed_sample : ∃ before value after,
    [sampleContact samplePubkey 1000, sampleVote samplePubkey 900] = before ++ value :: after ∧
      value.pubkey = samplePubkey ∧ NewestContact before value after ∧
      ∀ addr, value.gossipAddr = some addr →
        ((samplePubkey, addr) ∈ (mergeAll
            [sampleContact samplePubkey 1000, sampleVote samplePubkey 900]).getContactInfos
          ↔ NotDisplaced before value after) :=
  peers_listed_iff ⟨sampleContact samplePubkey 1000, by simp, rfl, rfl⟩

/-- A contact info, and a newer vote of the same node. -/
theorem peers_displaced :
    ¬ ∀ (values : List CrdsValue) (pk : Pubkey),
      (∃ value ∈ values, isContact value = true ∧ value.pubkey = pk) →
        ∃ before value after, values = before ++ value :: after ∧ value.pubkey = pk ∧
          NewestContact before value after ∧
          ∀ addr, value.gossipAddr = some addr →
            (pk, addr) ∈ (mergeAll values).getContactInfos := by
  intro h
  obtain ⟨before, value, after, hsplit, hpk, hnewest, hlisted⟩ :=
    h [sampleContact samplePubkey 1000, sampleVote samplePubkey 2000] samplePubkey
      ⟨sampleContact samplePubkey 1000, by simp, rfl, rfl⟩
  have hinfos : (mergeAll [sampleContact samplePubkey 1000,
      sampleVote samplePubkey 2000]).getContactInfos = [] := by decide +kernel
  have hmem : value ∈ [sampleContact samplePubkey 1000, sampleVote samplePubkey 2000] := by
    rw [hsplit]
    simp
  -- the vote took the place of the contact info
  rcases List.mem_cons.mp hmem with rfl | hmem
  · have hin := hlisted ⟨.v4 ⟨#[127, 0, 0, 1], rfl⟩, 8001⟩ (by decide +kernel)
    rw [hinfos] at hin
    cases hin
  · rw [List.mem_singleton.mp hmem] at hnewest
    exact absurd hnewest.contact (by decide)

/-! ### Convergence -/

/-- The value that arrived first among those of its node with the largest
wallclock. -/
structure EarliestNewest (before : List CrdsValue) (value : CrdsValue) (after : List CrdsValue) :
    Prop where
  before : ∀ v ∈ before, v.pubkey = value.pubkey → v.wallclock < value.wallclock
  after : ∀ v ∈ after, v.pubkey = value.pubkey → v.wallclock ≤ value.wallclock

theorem earliestNewest_iff {before after : List CrdsValue} {value : CrdsValue} {pk : Pubkey}
    (hpk : value.pubkey = pk) :
    EarliestNewest before value after ↔
      NewestWins.NewestOf stamp (before.filter fun v => v.pubkey = pk) value
        (after.filter fun v => v.pubkey = pk) := by
  subst hpk
  constructor
  · intro h
    refine ⟨fun v hv => ?_, fun v hv => ?_⟩
    · simp only [List.mem_filter, decide_eq_true_eq] at hv
      exact stamp_lt_iff.mpr (h.before v hv.1 hv.2)
    · simp only [List.mem_filter, decide_eq_true_eq] at hv
      exact stamp_le_iff.mpr (h.after v hv.1 hv.2)
  · intro h
    refine ⟨fun v hv hpubkey => ?_, fun v hv hpubkey => ?_⟩
    · exact stamp_lt_iff.mp (h.before v (List.mem_filter.mpr ⟨hv, by simp [hpubkey]⟩))
    · exact stamp_le_iff.mp (h.after v (List.mem_filter.mpr ⟨hv, by simp [hpubkey]⟩))

theorem lookup_mergeAll_eq_some_iff {values : List CrdsValue} {pk : Pubkey} {value : CrdsValue} :
    (mergeAll values).entries.lookup pk = some value ↔
      ∃ before after, values = before ++ value :: after ∧ value.pubkey = pk ∧
        EarliestNewest before value after := by
  rw [entries_mergeAll, NewestWins.lookup_mergeAll_eq_some_iff]
  constructor
  · rintro ⟨before, after, hsplit, hpk, hnewest⟩
    exact ⟨before, after, hsplit, hpk, (earliestNewest_iff hpk).mpr hnewest⟩
  · rintro ⟨before, after, hsplit, hpk, hnewest⟩
    exact ⟨before, after, hsplit, hpk, (earliestNewest_iff hpk).mp hnewest⟩

/-- What a merge reports, after the merges before it. -/
theorem merge_mergeAll_flag_iff (before : List CrdsValue) (value : CrdsValue) :
    ((mergeAll before).merge value).2 = true ↔
      ∀ v ∈ before, v.pubkey = value.pubkey → v.wallclock < value.wallclock := by
  rw [merge_eq, entries_mergeAll, NewestWins.merge_mergeAll_flag_iff]
  simp only [stamp_lt_iff]

/-- **Merging converges**: the entry of a node is the first to arrive of its
newest values, and a merge reports `true` when its value is newer than all of
its node before it.  So sequences with the same values give the same table, in
whatever order and however often a value comes, when no two of them share
node and wallclock. -/
theorem mergeAll_converges (values : List CrdsValue) :
    (∀ pk value, (mergeAll values).entries.lookup pk = some value ↔
      ∃ before after, values = before ++ value :: after ∧ value.pubkey = pk ∧
        EarliestNewest before value after) ∧
    (∀ before value after, values = before ++ value :: after →
      (((mergeAll before).merge value).2 = true ↔
        ∀ v ∈ before, v.pubkey = value.pubkey → v.wallclock < value.wallclock)) ∧
    ((∀ v ∈ values, ∀ w ∈ values, v.pubkey = w.pubkey → v.wallclock = w.wallclock → v = w) →
      ∀ values', (∀ v, v ∈ values' ↔ v ∈ values) →
        ∀ pk, (mergeAll values').entries.lookup pk = (mergeAll values).entries.lookup pk) := by
  refine ⟨fun pk value => lookup_mergeAll_eq_some_iff,
    fun before value after _ => merge_mergeAll_flag_iff before value, ?_⟩
  intro hinj values' hsame pk
  rw [entries_mergeAll, entries_mergeAll]
  refine NewestWins.lookup_mergeAll_congr hsame ?_ pk
  intro v hv w hw hpubkey hstamp
  exact hinj v hv w hw hpubkey (UInt64.toNat_inj.mp hstamp)

end CrdsTable

end Sg32
