/-
The gossip loop (the main loop of `run_gossip_loop` in `lib.rs`, `handler.rs`).

The loop takes what comes first: a datagram, which is a ping to answer or brings
values for the table; or the end of a sleep of half a second, after which it
asks its peers for values every ten seconds, and prunes the table every fifteen.
After a prune it names the highest slot, and tells the main loop of every
contact info in the table.

* `step_eq_ok` — what one turn does, and what it puts out;
* `run_table` — the table is what merges and prunes make of it;
* `run_newest` — with clocks as they are, it holds the newest value of each node
  among all that arrived.
-/
import Sg32.Foundation.Reactor
import Sg32.Gossip.PingPong
import Sg32.Gossip.Prune
import Sg32.Gossip.PullRequest

namespace Sg32

open Rust Bytes Reactor

/-! ### The loop -/

/-- What the messages carry. -/
abbrev gossipTypes (F : Type) : GossipTypes where
  CrdsFilter := CrdsFilter F
  CrdsValue := CrdsValue
  CrdsData := CrdsData
  Ping := Ping
  Pong := Pong

abbrev Message (F : Type) := Protocol (gossipTypes F)

/-- What a run is given: the libraries, our key, and where we and the entrypoint are. -/
structure GossipEnv (F : Type) where
  libs : GossipLibs (gossipTypes F)
  pull : PullEnv F
  sha256 : Bytes → Digest
  build : Build
  node : SigningKey
  entrypoint : SocketAddr
  gossip_addr : SocketAddr

/-- The state that the loop works on; the clocks are those of `Instant`, in
milliseconds. -/
structure GossipLoop where
  crds_table : CrdsTable
  known_peers : List SocketAddr
  last_pull : ℕ
  last_prune : ℕ
  pull_round : UInt64

/-- What the end of a sleep takes from its surroundings: the clock when it is
read and when it is set, the rest of our contact info, the Bloom filters, the
time of the prune and the slot that is loaded after it. -/
structure Wake (F : Type) where
  pull_check : ℕ
  pull_done : ℕ
  prune_check : ℕ
  prune_done : ℕ
  wallclock : UInt64
  rest : Bytes
  probe : F
  bloom : ℕ → F
  since : Duration
  latest_slot : UInt64

/-- What the loop waits for; `sent` says whether the socket takes an answer. -/
inductive GossipEvent (F : Type)
  | recvError
  | datagram (bytes : Bytes) (sender : SocketAddr) (sent : Bool)
  | wake (w : Wake F)

/-- What the loop puts out: the answer to a ping, a request, a slot for the
counter, and a contact info for the main loop. -/
inductive GossipOutput
  | pong (d : Datagram)
  | pullRequest (d : Datagram)
  | latestSlot (slot : UInt64)
  | contactInfo (info : ContactInfo)
  deriving DecidableEq

/-- Why gossip ends: it panics, or returns an error. -/
inductive GossipStop
  | panic (p : Panic)
  | error
  deriving DecidableEq

/-- A panic ends the loop. -/
def orPanic {α : Type} (c : Checked α) : Except GossipStop α := c.mapError .panic

theorem orPanic_eq_ok {α : Type} {c : Checked α} {a : α} : orPanic c = .ok a ↔ c = .ok a := by
  cases c <;> simp [orPanic, Except.mapError]

def PULL_MILLIS : ℕ := 10000

def PRUNE_MILLIS : ℕ := 15000

/-- The encoding of a ping. -/
def pingMessage : Codec Ping := Codec.prefixed (le32 4) Ping.codec

/-- The encoding of a pong. -/
def pongMessage : Codec Pong := Codec.prefixed (le32 5) Pong.codec

def ContactInfo.new (pubkey : Pubkey) (wallclock : UInt64) (gossip : SocketAddr) (rest : Bytes) :
    ContactInfo where
  pubkey := pubkey
  wallclock := wallclock
  addrs := [gossip.ip]
  sockets := [{ key := 0, index := 0, offset := gossip.port }]
  rest := rest

namespace GossipLoop

variable {F : Type} (env : GossipEnv F)

/-- Answer a ping. -/
def answer (ping : Ping) (sender : SocketAddr) (sent : Bool) :
    Except GossipStop (List GossipOutput) :=
  if sent then
    .ok [.pong ⟨sender, pongMessage.encode (Pong.new env.sha256 ping env.node)⟩]
  else .error .error

def mergeValues (table : CrdsTable) (values : List CrdsValue) : CrdsTable :=
  values.foldl (fun table value => (table.merge value).1) table

/-- The addresses that the table lists, but our own. -/
def newPeers (table : CrdsTable) : List SocketAddr :=
  (table.getContactInfos.filter fun info => info.1 ≠ env.node.verifyingKey).map Prod.snd

/-- The table after a message, and the addresses found in it. -/
def handle (msg : Message F) (sender : SocketAddr) (sent : Bool) (table : CrdsTable) :
    Except GossipStop (CrdsTable × List SocketAddr × List GossipOutput) :=
  match msg with
  | .pushMessage _ values | .pullResponse _ values =>
    let table := mergeValues table values
    .ok (table, newPeers env table, [])
  | .pingMessage ping => (answer env ping sender sent).map fun out => (table, [], out)
  | _ => .ok (table, [], [])

/-- The packets of a round: every message to the entrypoint, one to each other
peer.  The order of the peers is that of a hash set. -/
def pullPackets (known_peers : List SocketAddr) (pull_round : UInt64)
    (messages : List (PullRequest env.pull)) : List Datagram :=
  messages.map (fun message => ⟨env.entrypoint, message.bytes⟩) ++
    (known_peers.filter (· ≠ env.entrypoint)).filterMap fun peer =>
      (rotatingMessage messages pull_round).map fun message => ⟨peer, message.bytes⟩

/-- Our contact info at the time of a pull. -/
def ownInfo (w : Wake F) : ContactInfo :=
  .new env.node.verifyingKey w.wallclock env.gossip_addr w.rest

/-- The first half of what the end of a sleep does. -/
def pullTurn (s : GossipLoop) (w : Wake F) :
    Except GossipStop (GossipLoop × List GossipOutput) :=
  if w.pull_check - s.last_pull ≥ PULL_MILLIS then do
    let known_peers := if s.known_peers.isEmpty then [env.entrypoint] else s.known_peers
    match ← orPanic (createPullRequestMessages env.pull w.probe w.bloom (ownInfo env w)).run with
    | .ok messages =>
      .ok ({ s with
              known_peers := known_peers
              last_pull := w.pull_done
              pull_round := s.pull_round + 1 },
        (pullPackets env known_peers s.pull_round messages).map .pullRequest)
    | .error _ => .ok ({ s with known_peers := known_peers, last_pull := w.pull_done }, [])
  else .ok (s, [])

/-- The slot that is stored: the highest of the table, when it is larger than the
one that was loaded. -/
def storedSlot (table : CrdsTable) (latest_slot : UInt64) : Option UInt64 :=
  table.getHighestSlot.filter fun slot => slot > latest_slot

/-- What is told of a table after a prune. -/
def report (table : CrdsTable) (latest_slot : UInt64) : List GossipOutput :=
  (storedSlot table latest_slot).toList.map .latestSlot ++
    table.allContactInfos.map fun info => .contactInfo info.2

/-- The second half of what the end of a sleep does. -/
def pruneTurn (s : GossipLoop) (w : Wake F) :
    Except GossipStop (GossipLoop × List GossipOutput) :=
  if w.prune_check - s.last_prune ≥ PRUNE_MILLIS then do
    let table ← orPanic (s.crds_table.prune env.build w.since)
    .ok ({ s with
            crds_table := table
            known_peers := table.getContactInfos.map Prod.snd ∪ s.known_peers
            last_prune := w.prune_done },
      report table w.latest_slot)
  else .ok (s, [])

/-- One turn of the loop. -/
def step (s : GossipLoop) : GossipEvent F → Except GossipStop (GossipLoop × List GossipOutput)
  | .recvError => .ok (s, [])
  | .datagram bytes sender sent => do
    match ← orPanic (decodeFrom env.libs env.build bytes) with
    | none => .ok (s, [])
    | some (.pingMessage ping) => (answer env ping sender sent).map fun out => (s, out)
    | some (.pongMessage _) => .ok (s, [])
    | some msg => do
      let (table, new_peers, out) ← handle env msg sender sent s.crds_table
      .ok ({ s with crds_table := table, known_peers := new_peers ∪ s.known_peers }, out)
  | .wake w => do
    let (s, pulls) ← pullTurn env s w
    let (s, out) ← pruneTurn env s w
    .ok (s, pulls ++ out)

/-- The loop over some events, with all that it puts out. -/
abbrev run (s : GossipLoop) (events : List (GossipEvent F)) :
    Except GossipStop (GossipLoop × List GossipOutput) :=
  react (step env) s events

/-- The loop before its first turn. -/
def start (last_pull last_prune : ℕ) : GossipLoop where
  crds_table := .new
  known_peers := [env.entrypoint]
  last_pull := last_pull
  last_prune := last_prune
  pull_round := 0

/-! ### One turn -/

/-- The message of a datagram, when it decodes. -/
def messageOf : GossipEvent F → Option (Message F)
  | .datagram bytes _ _ => (decodeFrom env.libs env.build bytes).toOption.join
  | _ => none

/-- The values that a message lists, if it is of a kind that lists values. -/
def listOf : Message F → Option (List CrdsValue)
  | .pushMessage _ values | .pullResponse _ values => some values
  | _ => none

/-- The values that an event brings. -/
def arrived (e : GossipEvent F) : List CrdsValue := ((messageOf env e).bind listOf).getD []

/-- The answer to a message that is a ping. -/
def pongOf (sender : SocketAddr) : Message F → Option Datagram
  | .pingMessage ping => some ⟨sender, pongMessage.encode (Pong.new env.sha256 ping env.node)⟩
  | _ => none

/-- The answer to an event that is a ping. -/
def pongFor : GossipEvent F → Option Datagram
  | .datagram bytes sender sent =>
    (messageOf env (.datagram bytes sender sent)).bind (pongOf env sender)
  | _ => none

/-- A pull is due, for this last pull. -/
abbrev PullDue (last : ℕ) (w : Wake F) : Prop := w.pull_check - last ≥ PULL_MILLIS

/-- A prune is due, for this last prune. -/
abbrev PruneDue (last : ℕ) (w : Wake F) : Prop := w.prune_check - last ≥ PRUNE_MILLIS

/-- The messages of a pull, if they could be built. -/
def messagesFor (w : Wake F) : Option (List (PullRequest env.pull)) :=
  match (createPullRequestMessages env.pull w.probe w.bloom (ownInfo env w)).run with
  | .ok (.ok messages) => some messages
  | _ => none

/-- The rounds of requests that an event makes: one, or none. -/
def roundFor (last : ℕ) : GossipEvent F → List (List (PullRequest env.pull))
  | .wake w => if PullDue last w then (messagesFor env w).toList else []
  | _ => []

/-- When the last pull was, after an event. -/
def pullTime (last : ℕ) : GossipEvent F → ℕ
  | .wake w => if PullDue last w then w.pull_done else last
  | _ => last

/-- When the last prune was, after an event. -/
def pruneTime (last : ℕ) : GossipEvent F → ℕ
  | .wake w => if PruneDue last w then w.prune_done else last
  | _ => last

/-- What an event does to the table. -/
def tableCalls (last : ℕ) : GossipEvent F → List CrdsTable.TableCall
  | .recvError => []
  | .datagram bytes sender sent => (arrived env (.datagram bytes sender sent)).map .merge
  | .wake w => if PruneDue last w then [.prune w.since] else []

/-- The addresses that an event makes the loop look up in the table. -/
def foundPeers (last_prune : ℕ) (e : GossipEvent F) (table : CrdsTable) : List SocketAddr :=
  match e with
  | .recvError => []
  | .datagram bytes sender sent =>
    if ((messageOf env (.datagram bytes sender sent)).bind listOf).isSome then newPeers env table
    else []
  | .wake w => if PruneDue last_prune w then table.getContactInfos.map Prod.snd else []

/-- What is told after an event. -/
def reportFor (last_prune : ℕ) (e : GossipEvent F) (table : CrdsTable) : List GossipOutput :=
  match e with
  | .wake w => if PruneDue last_prune w then report table w.latest_slot else []
  | _ => []

/-- What one turn does, and what it puts out. -/
structure Turn (s : GossipLoop) (e : GossipEvent F) (s' : GossipLoop) (out : List GossipOutput) :
    Prop where
  table : (tableCalls env s.last_prune e).foldlM (CrdsTable.call env.build) s.crds_table =
    .ok s'.crds_table
  peers : s'.known_peers = foundPeers env s.last_prune e s'.crds_table ∪ s.known_peers
  last_pull : s'.last_pull = pullTime s.last_pull e
  last_prune : s'.last_prune = pruneTime s.last_prune e
  pull_round : s'.pull_round = pullRoundAfter s.pull_round (roundFor env s.last_pull e).length
  out : out = (pongFor env e).toList.map .pong ++
    ((roundFor env s.last_pull e).flatMap (pullPackets env s.known_peers s.pull_round)).map
      .pullRequest ++ reportFor s.last_prune e s'.crds_table

variable {env} {s s' mid : GossipLoop} {e : GossipEvent F} {out : List GossipOutput} {w : Wake F}

theorem foldlM_merge (build : Build) (table : CrdsTable) (values : List CrdsValue) :
    (values.map .merge).foldlM (CrdsTable.call build) table = .ok (mergeValues table values) := by
  induction values generalizing table with
  | nil => rfl
  | cons value values ih => exact ih (table.merge value).1

theorem answer_eq_ok {ping : Ping} {sender : SocketAddr} {sent : Bool}
    (h : answer env ping sender sent = .ok out) :
    out = [.pong ⟨sender, pongMessage.encode (Pong.new env.sha256 ping env.node)⟩] := by
  rw [answer] at h
  split_ifs at h
  cases h
  rfl

/-- A datagram's values are merged, and a ping is answered. -/
theorem turn_datagram {bytes : Bytes} {sender : SocketAddr} {sent : Bool}
    (h : step env s (.datagram bytes sender sent) = .ok (s', out)) :
    Turn env s (.datagram bytes sender sent) s' out := by
  obtain ⟨msg, hmsg, h⟩ := except_bind_eq_ok.mp h
  have hmessage : messageOf env (.datagram bytes sender sent) = msg := by
    rw [messageOf, orPanic_eq_ok.mp hmsg]
    rfl
  have htable : s'.crds_table = mergeValues s.crds_table ((msg.bind listOf).getD []) →
      (tableCalls env s.last_prune (.datagram bytes sender sent)).foldlM
        (CrdsTable.call env.build) s.crds_table = .ok s'.crds_table := by
    intro htable
    rw [htable, ← hmessage]
    exact foldlM_merge env.build s.crds_table _
  have hpeers : ∀ table, foundPeers env s.last_prune (.datagram bytes sender sent) table =
      if (msg.bind listOf).isSome then newPeers env table else [] := by
    intro table
    rw [← hmessage]
    rfl
  have hpong : pongFor env (.datagram bytes sender sent) = msg.bind (pongOf env sender) := by
    rw [← hmessage]
    rfl
  cases msg with
  | none =>
    cases h
    exact ⟨htable rfl, by rw [hpeers]; rfl, rfl, rfl, rfl, by rw [hpong]; rfl⟩
  | some msg =>
    cases msg with
    | pingMessage ping =>
      rcases hanswer : answer env ping sender sent with stop | pong
      · simp only [hanswer] at h
        cases h
      · simp only [hanswer] at h
        cases h
        exact ⟨htable rfl, by rw [hpeers]; rfl, rfl, rfl, rfl, by
          rw [hpong]
          exact answer_eq_ok hanswer⟩
    | _ =>
      cases h
      exact ⟨htable rfl, by rw [hpeers]; rfl, rfl, rfl, rfl, by rw [hpong]; rfl⟩

/-- A pull that is due sends its messages, if they can be built. -/
theorem pullTurn_eq_ok (hpeers : env.entrypoint ∈ s.known_peers)
    (h : pullTurn env s w = .ok (mid, out)) :
    mid = { s with
            last_pull := pullTime s.last_pull (.wake w)
            pull_round :=
              pullRoundAfter s.pull_round (roundFor env s.last_pull (.wake w)).length } ∧
      out = ((roundFor env s.last_pull (.wake w)).flatMap
        (pullPackets env s.known_peers s.pull_round)).map .pullRequest := by
  -- the entrypoint is known, so nothing is put in its place
  have hknown : (if s.known_peers.isEmpty then [env.entrypoint] else s.known_peers) =
      s.known_peers := by
    rw [List.isEmpty_eq_false_iff.mpr (List.ne_nil_of_mem hpeers)]
    rfl
  rw [pullTurn, hknown] at h
  rw [pullTime, roundFor]
  by_cases hdue : PullDue s.last_pull w
  · rw [if_pos hdue] at h ⊢
    rw [if_pos hdue]
    obtain ⟨built, hbuilt, h⟩ := except_bind_eq_ok.mp h
    rw [messagesFor, orPanic_eq_ok.mp hbuilt]
    cases built with
    | error e =>
      cases h
      exact ⟨rfl, rfl⟩
    | ok messages =>
      cases h
      exact ⟨rfl, congrArg _ (List.flatMap_singleton _ _).symm⟩
  · rw [if_neg hdue] at h ⊢
    rw [if_neg hdue]
    cases h
    exact ⟨rfl, rfl⟩

theorem pruneTurn_eq_ok (h : pruneTurn env s w = .ok (s', out)) :
    (tableCalls env s.last_prune (.wake w)).foldlM (CrdsTable.call env.build) s.crds_table =
        .ok s'.crds_table ∧
      s' = { s with
             crds_table := s'.crds_table
             known_peers := foundPeers env s.last_prune (.wake w) s'.crds_table ∪ s.known_peers
             last_prune := pruneTime s.last_prune (.wake w) } ∧
      out = reportFor s.last_prune (.wake w) s'.crds_table := by
  rw [tableCalls, foundPeers, pruneTime, reportFor]
  rw [pruneTurn] at h
  split_ifs at h ⊢ with hdue
  · obtain ⟨table, htable, h⟩ := except_bind_eq_ok.mp h
    cases h
    exact ⟨by rw [List.foldlM_cons, CrdsTable.call, orPanic_eq_ok.mp htable]; rfl, rfl, rfl⟩
  · cases h
    exact ⟨rfl, rfl, rfl⟩

/-- **What one turn does**. -/
theorem step_eq_ok (hpeers : env.entrypoint ∈ s.known_peers)
    (h : step env s e = .ok (s', out)) : Turn env s e s' out := by
  cases e with
  | recvError =>
    cases h
    exact ⟨rfl, rfl, rfl, rfl, rfl, rfl⟩
  | datagram bytes sender sent => exact turn_datagram h
  | wake w =>
    obtain ⟨⟨mid, pulls⟩, hpull, h⟩ := except_bind_eq_ok.mp h
    obtain ⟨⟨last, told⟩, hprune, h⟩ := except_bind_eq_ok.mp h
    cases h
    obtain ⟨rfl, rfl⟩ := pullTurn_eq_ok hpeers hpull
    obtain ⟨htable, hs', rfl⟩ := pruneTurn_eq_ok hprune
    refine ⟨htable, ?_, ?_, ?_, ?_, rfl⟩ <;> rw [hs']

/-! ### Runs -/

variable {events : List (GossipEvent F)} {log : List GossipOutput} {now now' : ℕ}

/-- What the events do to the table, from this last prune on. -/
abbrev callsOf (env : GossipEnv F) (last_prune : ℕ) (events : List (GossipEvent F)) :
    List CrdsTable.TableCall :=
  collect pruneTime (tableCalls env) last_prune events

/-- The rounds of requests, from this last pull on. -/
abbrev roundsOf (env : GossipEnv F) (last_pull : ℕ) (events : List (GossipEvent F)) :
    List (List (PullRequest env.pull)) :=
  collect pullTime (roundFor env) last_pull events

/-- Where a run has come. -/
structure Ran (env : GossipEnv F) (s : GossipLoop) (events : List (GossipEvent F))
    (s' : GossipLoop) : Prop where
  table : (callsOf env s.last_prune events).foldlM (CrdsTable.call env.build) s.crds_table =
    .ok s'.crds_table
  peers : s.known_peers ⊆ s'.known_peers
  nodup : s.known_peers.Nodup → s'.known_peers.Nodup
  last_pull : s'.last_pull = events.foldl pullTime s.last_pull
  last_prune : s'.last_prune = events.foldl pruneTime s.last_prune
  pull_round : s'.pull_round = pullRoundAfter s.pull_round (roundsOf env s.last_pull events).length

theorem pullRoundAfter_add (pull_round : UInt64) (m n : ℕ) :
    pullRoundAfter pull_round (m + n) = pullRoundAfter (pullRoundAfter pull_round m) n := by
  induction n with
  | zero => rfl
  | succ n ih => rw [Nat.add_succ, pullRoundAfter, ih, pullRoundAfter]

/-- **Where a run has come**, in its table, its clocks and its rounds. -/
theorem run_eq_ok (hpeers : env.entrypoint ∈ s.known_peers)
    (h : run env s events = .ok (s', log)) : Ran env s events s' := by
  refine react_invariant (fun seen s' _ => Ran env s seen s')
    ⟨rfl, List.Subset.refl _, id, rfl, rfl, rfl⟩ ?_ h
  intro seen mid out e next new hmid hstep
  have hturn := step_eq_ok (hmid.peers hpeers) hstep
  refine ⟨?_, ?_, fun hnodup => ?_, ?_, ?_, ?_⟩
  · rw [callsOf, collect_concat, ← hmid.last_prune, List.foldlM_append, hmid.table]
    exact hturn.table
  · rw [hturn.peers]
    exact fun addr haddr => List.mem_union_iff.mpr (.inr (hmid.peers haddr))
  · rw [hturn.peers]
    exact (hmid.nodup hnodup).union _
  · rw [hturn.last_pull, hmid.last_pull, List.foldl_append]
    rfl
  · rw [hturn.last_prune, hmid.last_prune, List.foldl_append]
    rfl
  · rw [hturn.pull_round, hmid.pull_round, hmid.last_pull]
    show _ = pullRoundAfter s.pull_round
      (collect pullTime (roundFor env) s.last_pull (seen ++ [e])).length
    rw [collect_concat, List.length_append, pullRoundAfter_add]

/-! ### The table -/

/-- **The table is what merges and prunes make of it**. -/
theorem run_table (h : run env (start env now now') events = .ok (s', log)) :
    CrdsTable.run env.build (callsOf env now' events) = .ok s'.crds_table :=
  (run_eq_ok (List.mem_singleton_self _) h).table

theorem merged_tableCalls (last : ℕ) (e : GossipEvent F) :
    CrdsTable.merged (tableCalls env last e) = arrived env e := by
  have hmerges : ∀ values : List CrdsValue, CrdsTable.merged (values.map .merge) = values := by
    intro values
    rw [CrdsTable.merged, List.filterMap_map]
    exact List.filterMap_some
  cases e with
  | recvError => rfl
  | datagram bytes sender sent => exact hmerges _
  | wake w =>
    rw [tableCalls]
    split_ifs <;> rfl

theorem merged_callsOf (last : ℕ) (events : List (GossipEvent F)) :
    CrdsTable.merged (callsOf env last events) = events.flatMap (arrived env) := by
  induction events generalizing last with
  | nil => rfl
  | cons e events ih =>
    rw [callsOf, collect, CrdsTable.merged, List.filterMap_append, List.flatMap_cons]
    exact congrArg₂ _ (merged_tableCalls last e) (ih (pruneTime last e))

/-- The clock of a prune is at least fifteen minutes into the epoch, and in
seconds below every wallclock, which is in milliseconds. -/
def UsualClocks (env : GossipEnv F) (events : List (GossipEvent F)) : Prop :=
  ∀ w, .wake w ∈ events → 15 * 60 ≤ w.since.secs.toNat ∧
    ∀ value ∈ events.flatMap (arrived env), w.since.secs.toNat < CrdsTable.stamp value + 15 * 60

theorem exists_wake_of_prune {last : ℕ} {since : Duration}
    (h : .prune since ∈ callsOf env last events) : ∃ w, .wake w ∈ events ∧ w.since = since := by
  obtain ⟨before, e, after, rfl, hcall⟩ := mem_collect.mp h
  cases e with
  | recvError => cases hcall
  | datagram bytes sender sent =>
    obtain ⟨value, -, hvalue⟩ := List.mem_map.mp hcall
    cases hvalue
  | wake w =>
    rw [tableCalls] at hcall
    split_ifs at hcall
    · rw [List.mem_singleton] at hcall
      cases hcall
      exact ⟨w, by simp, rfl⟩
    · cases hcall

theorem UsualClocks.of_append {more : List (GossipEvent F)}
    (h : UsualClocks env (events ++ more)) : UsualClocks env events := by
  intro w hw
  obtain ⟨hsecs, hvalues⟩ := h w (List.mem_append_left _ hw)
  refine ⟨hsecs, fun value hvalue => hvalues value ?_⟩
  rw [List.flatMap_append]
  exact List.mem_append_left _ hvalue

/-- With usual clocks nothing is pruned. -/
theorem table_eq_mergeAll (hclocks : UsualClocks env events)
    (h : run env (start env now now') events = .ok (s', log)) :
    s'.crds_table = CrdsTable.mergeAll (events.flatMap (arrived env)) := by
  have htable := run_table h
  rw [CrdsTable.run_eq_mergeAll, merged_callsOf] at htable
  · exact (Except.ok.inj htable).symm
  · intro since hsince
    obtain ⟨w, hw, rfl⟩ := exists_wake_of_prune hsince
    exact (hclocks w hw).1
  · intro since value hsince hvalue
    obtain ⟨w, hw, rfl⟩ := exists_wake_of_prune hsince
    refine (hclocks w hw).2 value ?_
    rw [← merged_callsOf now' events]
    exact CrdsTable.mem_merged.mpr hvalue

/-- **The table holds the newest values**: the entry of a node is the newest of
all its values that arrived. -/
theorem run_newest (hclocks : UsualClocks env events)
    (h : run env (start env now now') events = .ok (s', log)) (pk : Pubkey) (value : CrdsValue) :
    s'.crds_table.entries.lookup pk = some value ↔
      ∃ before after, events.flatMap (arrived env) = before ++ value :: after ∧
        value.pubkey = pk ∧ CrdsTable.EarliestNewest before value after := by
  rw [table_eq_mergeAll hclocks h]
  exact CrdsTable.lookup_mergeAll_eq_some_iff

end GossipLoop

end Sg32
