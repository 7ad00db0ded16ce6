/-
The gossip binary (the main loop of `main` in `dc-gossip`'s `main.rs`).

It runs the loop of the library without a node around it: nothing is stored or
told, it asks every five seconds and prunes every thirty, and it sends all its
peers one request, always the one for the first part.

* `run_asLib` — its table and its peers are those of the library's loop;
* `sameTable` — with clocks as they are, both loops hold the same;
* `asked_firstPart` — it asks for the hashes of the first part and for no others.
-/
import Sg32.Gossip.LoopTraffic
import Sg32.Gossip.Startup

namespace Sg32

open Rust Bytes Reactor

/-- The state that the binary works on. -/
structure Standalone where
  crds_table : CrdsTable
  known_peers : List SocketAddr
  last_pull : ℕ
  last_prune : ℕ

namespace Standalone

def PULL_MILLIS : ℕ := 5000

def PRUNE_MILLIS : ℕ := 30000

variable {F : Type} (env : GossipEnv F)

/-- The first half of what the end of a sleep does.  The order of the peers is
that of a hash set. -/
def pullTurn (s : Standalone) (w : Wake F) :
    Except GossipStop (Standalone × List GossipOutput) :=
  if w.pull_check - s.last_pull ≥ PULL_MILLIS then do
    let known_peers := if s.known_peers.isEmpty then [env.entrypoint] else s.known_peers
    match ← orPanic
      (createPullRequestMessage env.pull w.probe (GossipLoop.ownInfo env w)).run with
    | .ok message =>
      .ok ({ s with known_peers := known_peers, last_pull := w.pull_done },
        known_peers.map fun peer => .pullRequest ⟨peer, message.bytes⟩)
    | .error _ => .ok ({ s with known_peers := known_peers, last_pull := w.pull_done }, [])
  else .ok (s, [])

/-- The second half of what the end of a sleep does. -/
def pruneTurn (s : Standalone) (w : Wake F) : Except GossipStop Standalone :=
  if w.prune_check - s.last_prune ≥ PRUNE_MILLIS then do
    let table ← orPanic (s.crds_table.prune env.build w.since)
    .ok { s with
          crds_table := table
          known_peers := table.getContactInfos.map Prod.snd ∪ s.known_peers
          last_prune := w.prune_done }
  else .ok s

/-- One turn of the loop. -/
def step (s : Standalone) :
    GossipEvent F → Except GossipStop (Standalone × List GossipOutput)
  | .recvError => .ok (s, [])
  | .datagram bytes sender sent => do
    match ← orPanic (decodeFrom env.libs env.build bytes) with
    | none => .ok (s, [])
    | some (.pingMessage ping) => (GossipLoop.answer env ping sender sent).map fun out => (s, out)
    | some (.pongMessage _) => .ok (s, [])
    | some msg => do
      let (table, new_peers, out) ← GossipLoop.handle env msg sender sent s.crds_table
      .ok ({ s with crds_table := table, known_peers := new_peers ∪ s.known_peers }, out)
  | .wake w => do
    let (s, pulls) ← pullTurn env s w
    let s ← pruneTurn env s w
    .ok (s, pulls)

/-- The loop over some events, with all that it sends. -/
abbrev run (s : Standalone) (events : List (GossipEvent F)) :
    Except GossipStop (Standalone × List GossipOutput) :=
  react (step env) s events

/-- The loop before its first turn. -/
def start (last_pull last_prune : ℕ) : Standalone where
  crds_table := .new
  known_peers := [env.entrypoint]
  last_pull := last_pull
  last_prune := last_prune

/-! ### As a run of the library's loop -/

/-- A pull is due, for this last pull. -/
abbrev PullDue (last : ℕ) (w : Wake F) : Prop := w.pull_check - last ≥ PULL_MILLIS

/-- A prune is due, for this last prune. -/
abbrev PruneDue (last : ℕ) (w : Wake F) : Prop := w.prune_check - last ≥ PRUNE_MILLIS

/-- When the last pull was, after an event. -/
def pullTime (last : ℕ) : GossipEvent F → ℕ
  | .wake w => if PullDue last w then w.pull_done else last
  | _ => last

/-- When the last prune was, after an event. -/
def pruneTime (last : ℕ) : GossipEvent F → ℕ
  | .wake w => if PruneDue last w then w.prune_done else last
  | _ => last

/-- The table and the peers, with the clocks and the rounds of the library's loop
at zero. -/
def view (s : Standalone) : GossipLoop where
  crds_table := s.crds_table
  known_peers := s.known_peers
  last_pull := 0
  last_prune := 0
  pull_round := 0

/-- An event with clocks on which the library's loop does not pull, and prunes
when the binary does. -/
def asLib (last_prune : ℕ) : GossipEvent F → GossipEvent F
  | .wake w => .wake
    { w with
      pull_check := 0
      prune_check := if PruneDue last_prune w then Sg32.PRUNE_MILLIS else 0
      prune_done := 0 }
  | e => e

/-- The events with such clocks. -/
def libEvents (last_prune : ℕ) (events : List (GossipEvent F)) : List (GossipEvent F) :=
  collect pruneTime (fun last e => [asLib last e]) last_prune events

variable {env} {s s' mid : Standalone} {e : GossipEvent F} {events : List (GossipEvent F)}
  {out log : List GossipOutput} {w : Wake F} {now now' : ℕ}

theorem libEvents_concat (last_prune : ℕ) (events : List (GossipEvent F)) (e : GossipEvent F) :
    libEvents last_prune (events ++ [e]) =
      libEvents last_prune events ++ [asLib (events.foldl pruneTime last_prune) e] :=
  collect_concat ..

/-- A pull changes neither the table nor the peers. -/
theorem pullTurn_eq_ok (hpeers : env.entrypoint ∈ s.known_peers)
    (h : pullTurn env s w = .ok (mid, out)) :
    mid = { s with last_pull := pullTime s.last_pull (.wake w) } := by
  have hknown : (if s.known_peers.isEmpty then [env.entrypoint] else s.known_peers) =
      s.known_peers := by
    rw [List.isEmpty_eq_false_iff.mpr (List.ne_nil_of_mem hpeers)]
    rfl
  rw [pullTurn, hknown] at h
  rw [pullTime]
  split_ifs at h ⊢ with hdue
  · obtain ⟨built, -, h⟩ := except_bind_eq_ok.mp h
    cases built <;> cases h <;> rfl
  · cases h
    rfl

/-- A datagram does to the table and the peers what it does to those of the
library's loop. -/
theorem step_datagram (s : Standalone) (bytes : Bytes) (sender : SocketAddr) (sent : Bool) :
    step env s (.datagram bytes sender sent) =
      (GossipLoop.step env (view s) (.datagram bytes sender sent)).map fun r =>
        ({ s with crds_table := r.1.crds_table, known_peers := r.1.known_peers }, r.2) := by
  rw [step, GossipLoop.step]
  rcases orPanic (decodeFrom env.libs env.build bytes) with stop | msg
  · rfl
  · cases msg with
    | none => rfl
    | some msg =>
      cases msg with
      | pingMessage ping =>
        show (GossipLoop.answer env ping sender sent).map _ =
          ((GossipLoop.answer env ping sender sent).map _).map _
        cases GossipLoop.answer env ping sender sent <;> rfl
      | _ => rfl

theorem pruneTurn_eq_ok (h : pruneTurn env s w = .ok s') :
    (∃ told, GossipLoop.step env (view s) (asLib s.last_prune (.wake w)) =
        .ok (view s', told)) ∧
      s'.last_pull = s.last_pull ∧ s'.last_prune = pruneTime s.last_prune (.wake w) := by
  rw [pruneTime, asLib]
  rw [pruneTurn] at h
  split_ifs at h ⊢ with hdue
  · obtain ⟨table, htable, h⟩ := except_bind_eq_ok.mp h
    cases h
    refine ⟨⟨GossipLoop.report table w.latest_slot, ?_⟩, rfl, rfl⟩
    refine except_bind_eq_ok.mpr ⟨(view s, []), rfl, ?_⟩
    refine except_bind_eq_ok.mpr ⟨_, except_bind_eq_ok.mpr ⟨table, htable, rfl⟩, rfl⟩
  · cases h
    exact ⟨⟨[], rfl⟩, rfl, rfl⟩

/-- **One turn is one turn of the library's loop**, which tells of the table
besides. -/
theorem step_asLib (hpeers : env.entrypoint ∈ s.known_peers)
    (h : step env s e = .ok (s', out)) :
    (∃ told, GossipLoop.step env (view s) (asLib s.last_prune e) = .ok (view s', told)) ∧
      s'.last_pull = pullTime s.last_pull e ∧ s'.last_prune = pruneTime s.last_prune e := by
  cases e with
  | recvError =>
    cases h
    exact ⟨⟨[], rfl⟩, rfl, rfl⟩
  | datagram bytes sender sent =>
    rw [step_datagram] at h
    rcases hlib : GossipLoop.step env (view s) (.datagram bytes sender sent) with stop | ⟨t, told⟩
    · rw [hlib] at h
      cases h
    · rw [hlib] at h
      cases h
      -- the clocks of the library's loop stay at zero
      have hturn := GossipLoop.turn_datagram hlib
      have ht : t = view { s with crds_table := t.crds_table, known_peers := t.known_peers } := by
        obtain ⟨table, peers, last_pull, last_prune, pull_round⟩ := t
        obtain rfl := hturn.last_pull
        obtain rfl := hturn.last_prune
        obtain rfl := hturn.pull_round
        rfl
      exact ⟨⟨told, by rw [← ht]; exact hlib⟩, rfl, rfl⟩
  | wake w =>
    obtain ⟨⟨mid, pulls⟩, hpull, h⟩ := except_bind_eq_ok.mp h
    obtain ⟨last, hprune, h⟩ := except_bind_eq_ok.mp h
    cases h
    rw [pullTurn_eq_ok hpeers hpull] at hprune
    exact pruneTurn_eq_ok hprune

/-- Where a run has come, seen as a run of the library's loop. -/
structure Ran (env : GossipEnv F) (s : Standalone) (events : List (GossipEvent F))
    (s' : Standalone) : Prop where
  lib : ∃ told, GossipLoop.run env (view s) (libEvents s.last_prune events) = .ok (view s', told)
  peers : s.known_peers ⊆ s'.known_peers
  last_pull : s'.last_pull = events.foldl pullTime s.last_pull
  last_prune : s'.last_prune = events.foldl pruneTime s.last_prune

/-- **A run is a run of the library's loop**, in its table and its peers. -/
theorem run_asLib (hpeers : env.entrypoint ∈ s.known_peers)
    (h : run env s events = .ok (s', log)) : Ran env s events s' := by
  refine react_invariant (fun seen s' _ => Ran env s seen s')
    ⟨⟨[], rfl⟩, List.Subset.refl _, rfl, rfl⟩ ?_ h
  intro seen mid out e next new hmid hstep
  obtain ⟨⟨told, hlib⟩, hpull, hprune⟩ := step_asLib (hmid.peers hpeers) hstep
  obtain ⟨earlier, hrun⟩ := hmid.lib
  rw [hmid.last_prune] at hlib
  have hnext : GossipLoop.run env (view s) (libEvents s.last_prune (seen ++ [e])) =
      .ok (view next, earlier ++ told) := by
    rw [libEvents_concat]
    exact react_concat_eq_ok.mpr ⟨_, _, _, hrun, hlib, rfl⟩
  have hran : GossipLoop.Ran env (view s) _ (view next) := GossipLoop.run_eq_ok hpeers hnext
  refine ⟨⟨_, hnext⟩, hran.peers, ?_, ?_⟩
  · rw [hpull, hmid.last_pull, List.foldl_append]
    rfl
  · rw [hprune, hmid.last_prune, List.foldl_append]
    rfl

/-! ### The table -/

theorem arrived_asLib (last_prune : ℕ) (e : GossipEvent F) :
    GossipLoop.arrived env (asLib last_prune e) = GossipLoop.arrived env e := by
  cases e <;> rfl

theorem arrived_libEvents (last_prune : ℕ) (events : List (GossipEvent F)) :
    (libEvents last_prune events).flatMap (GossipLoop.arrived env) =
      events.flatMap (GossipLoop.arrived env) := by
  induction events generalizing last_prune with
  | nil => rfl
  | cons e events ih =>
    rw [libEvents, collect, List.singleton_append, List.flatMap_cons, List.flatMap_cons,
      arrived_asLib]
    exact congrArg _ (ih _)

theorem usualClocks_libEvents (hclocks : GossipLoop.UsualClocks env events) (last_prune : ℕ) :
    GossipLoop.UsualClocks env (libEvents last_prune events) := by
  intro w hw
  rw [arrived_libEvents]
  obtain ⟨before, e, after, rfl, he⟩ := mem_collect.mp hw
  cases e with
  | recvError => cases List.mem_singleton.mp he
  | datagram bytes sender sent => cases List.mem_singleton.mp he
  | wake w' =>
    cases List.mem_singleton.mp he
    exact hclocks w' (by simp)

/-- With usual clocks nothing is pruned. -/
theorem table_eq_mergeAll (hclocks : GossipLoop.UsualClocks env events)
    (h : run env (start env now now') events = .ok (s', log)) :
    s'.crds_table = CrdsTable.mergeAll (events.flatMap (GossipLoop.arrived env)) := by
  obtain ⟨told, hlib⟩ := (run_asLib (List.mem_singleton_self _) h).lib
  rw [← arrived_libEvents now']
  exact GossipLoop.table_eq_mergeAll (usualClocks_libEvents hclocks now') hlib

/-- **Both loops hold the same**, after the same events. -/
theorem sameTable {t' : GossipLoop} {told : List GossipOutput} {last_pull last_prune : ℕ}
    (hclocks : GossipLoop.UsualClocks env events)
    (h : run env (start env now now') events = .ok (s', log))
    (hlib : GossipLoop.run env (GossipLoop.start env last_pull last_prune) events =
      .ok (t', told)) : s'.crds_table = t'.crds_table := by
  rw [table_eq_mergeAll hclocks h, GossipLoop.table_eq_mergeAll hclocks hlib]

/-! ### Requests -/

/-- The request of a pull, if it could be built. -/
def messageFor (env : GossipEnv F) (w : Wake F) : Option (PullRequest env.pull) :=
  match (createPullRequestMessage env.pull w.probe (GossipLoop.ownInfo env w)).run with
  | .ok (.ok message) => some message
  | _ => none

/-- The requests that an event makes: one, or none. -/
def requestFor (env : GossipEnv F) (last : ℕ) : GossipEvent F → List (PullRequest env.pull)
  | .wake w => if PullDue last w then (messageFor env w).toList else []
  | _ => []

/-- The requests, from this last pull on. -/
abbrev requestsOf (env : GossipEnv F) (last_pull : ℕ) (events : List (GossipEvent F)) :
    List (PullRequest env.pull) :=
  collect pullTime (requestFor env) last_pull events

theorem pullTurn_out (hpeers : env.entrypoint ∈ s.known_peers)
    (h : pullTurn env s w = .ok (mid, out)) :
    out = ((requestFor env s.last_pull (.wake w)).flatMap fun message =>
      s.known_peers.map fun peer => (⟨peer, message.bytes⟩ : Datagram)).map .pullRequest := by
  rw [pullTurn] at h
  rw [requestFor]
  split_ifs at h ⊢ with hdue hnone
  · rw [List.isEmpty_iff.mp hnone] at hpeers
    cases hpeers
  · obtain ⟨built, hbuilt, h⟩ := except_bind_eq_ok.mp h
    rw [messageFor, orPanic_eq_ok.mp hbuilt]
    cases built with
    | error e =>
      cases h
      rfl
    | ok message =>
      cases h
      simp
  · cases h
    rfl

/-- What one turn sends to a peer that is known. -/
theorem step_requestsTo (hpeers : env.entrypoint ∈ s.known_peers) (hnodup : s.known_peers.Nodup)
    {peer : SocketAddr} (hpeer : peer ∈ s.known_peers) (h : step env s e = .ok (s', out)) :
    GossipLoop.requestsTo peer out =
      (requestFor env s.last_pull e).map PullRequest.bytes := by
  cases e with
  | recvError =>
    cases h
    rfl
  | datagram bytes sender sent =>
    rw [step_datagram] at h
    rcases hlib : GossipLoop.step env (view s) (.datagram bytes sender sent) with stop | ⟨t, told⟩
    · rw [hlib] at h
      cases h
    · rw [hlib] at h
      cases h
      exact GossipLoop.turn_requestsTo (GossipLoop.turn_datagram hlib) hnodup hpeer
  | wake w =>
    obtain ⟨⟨mid, pulls⟩, hpull, h⟩ := except_bind_eq_ok.mp h
    obtain ⟨last, -, h⟩ := except_bind_eq_ok.mp h
    cases h
    rw [pullTurn_out hpeers hpull, GossipLoop.requestsTo_pullRequests, List.filter_flatMap,
      List.map_flatMap, ← List.flatMap_singleton' (List.map _ _), List.flatMap_map]
    refine List.flatMap_congr fun message _ => ?_
    -- the peer is known once
    have hone : s.known_peers.filter (· = peer) = [peer] := by
      rw [List.filter_eq, List.count_eq_one_of_mem hnodup hpeer]
      rfl
    rw [List.filter_map]
    show List.map Datagram.bytes (List.map _ (s.known_peers.filter (· = peer))) = _
    rw [hone]
    rfl

/-- **Which requests an address gets**: those of all pulls since it is known. -/
theorem run_requestsTo (hpeers : env.entrypoint ∈ s.known_peers) (hnodup : s.known_peers.Nodup)
    {peer : SocketAddr} (hpeer : peer ∈ s.known_peers) (h : run env s events = .ok (s', log)) :
    GossipLoop.requestsTo peer log =
      (requestsOf env s.last_pull events).map PullRequest.bytes := by
  induction events using List.reverseRecOn generalizing s' log with
  | nil =>
    cases h
    rfl
  | append_singleton events e ih =>
    obtain ⟨mid, first, out, hfirst, hstep, rfl⟩ := react_concat_eq_ok.mp h
    have hmid := run_asLib hpeers hfirst
    obtain ⟨told, hlib⟩ := hmid.lib
    have hran : GossipLoop.Ran env (view s) _ (view mid) := GossipLoop.run_eq_ok hpeers hlib
    rw [GossipLoop.requestsTo_append, ih hfirst,
      step_requestsTo (hmid.peers hpeers) (hran.nodup hnodup) (hmid.peers hpeer) hstep,
      hmid.last_pull, ← List.map_append, ← collect_concat]

/-- The request asks for the first part. -/
theorem matches_of_yields_createPullRequestMessage {mask_bits : UInt32}
    (hbits : mask_bits.toNat ≤ 63) {probe : F} {info : ContactInfo}
    (hcontact : contactMaskBits env.pull info = some mask_bits) {message : PullRequest env.pull}
    (h : (createPullRequestMessage env.pull probe info).Yields message) (hash : UInt64) :
    message.filter.Matches hash ↔ seedOf mask_bits hash = 0 := by
  unfold createPullRequestMessage at h
  split_ifs at h
  · exact absurd h Pull.not_yields_throw
  dsimp only at h
  rw [contactMaskBits] at hcontact
  cases hsize : env.pull.serializedSize (env.pull.newContactInfo info) with
  | none =>
    rw [hsize] at h
    exact absurd h Pull.not_yields_throw
  | some caller_size =>
    rw [hsize] at h hcontact
    cases hcontact
    obtain ⟨filter, hfilter, hencode⟩ := Pull.yields_bind.mp h
    have hseed : (0 : UInt64).toNat < 2 ^ (maskBitsFor env.pull caller_size).toNat :=
      Nat.two_pow_pos _
    obtain ⟨filter', hfilter', hmatches⟩ := CrdsFilter.newSeeded_eq_ok probe hbits hseed
    have hsame : filter' = filter := by
      rw [← Except.ok.injEq, ← hfilter', ← Pull.yields_lift.mp hfilter]
    rw [filter_of_yields_encodePullRequest hencode, ← hsame, hmatches]
    exact eq_comm

/-- **It asks for the hashes of the first part and for no others**, whichever
pull it is and whichever peer. -/
theorem asked_firstPart {mask_bits : UInt32} (hbits : mask_bits.toNat ≤ 63)
    (hmask : GossipLoop.MaskBits env mask_bits events) (hpeers : env.entrypoint ∈ s.known_peers)
    (hnodup : s.known_peers.Nodup) {peer : SocketAddr} (hpeer : peer ∈ s.known_peers)
    (h : run env s events = .ok (s', log)) :
    GossipLoop.requestsTo peer log = (requestsOf env s.last_pull events).map PullRequest.bytes ∧
      ∀ message ∈ requestsOf env s.last_pull events, ∀ hash,
        message.filter.Matches hash ↔ seedOf mask_bits hash = 0 := by
  refine ⟨run_requestsTo hpeers hnodup hpeer h, fun message hmem hash => ?_⟩
  obtain ⟨before, e, after, rfl, hmessage⟩ := mem_collect.mp hmem
  cases e with
  | recvError => cases hmessage
  | datagram bytes sender sent => cases hmessage
  | wake w =>
    rw [requestFor] at hmessage
    split_ifs at hmessage
    · rw [Option.mem_toList, messageFor] at hmessage
      split at hmessage
      · rename_i built hbuilt
        cases hmessage
        exact matches_of_yields_createPullRequestMessage hbits (hmask w (by simp)) hbuilt hash
      · cases hmessage
    · cases hmessage

/-! ### The sample run -/

theorem exists_run_sampleGossip : ∃ s' log,
    run sampleGossipEnv (start sampleGossipEnv 0 0) sampleGossip = .ok (s', log) := by
  have hsome : (run sampleGossipEnv (start sampleGossipEnv 0 0) sampleGossip).toOption.isSome =
      true := by
    decide +kernel
  rcases hrun : run sampleGossipEnv (start sampleGossipEnv 0 0) sampleGossip with
    stop | ⟨s', log⟩
  · rw [hrun] at hsome
    cases hsome
  · exact ⟨s', log, rfl⟩

theorem sameTable_sample : ∃ s' log t' told,
    run sampleGossipEnv (start sampleGossipEnv 0 0) sampleGossip = .ok (s', log) ∧
      GossipLoop.run sampleGossipEnv (GossipLoop.start sampleGossipEnv 0 0) sampleGossip =
        .ok (t', told) ∧
      s'.crds_table = t'.crds_table := by
  obtain ⟨s', log, hrun⟩ := exists_run_sampleGossip
  obtain ⟨t', told, hlib⟩ := GossipLoop.exists_run_sampleGossip
  exact ⟨s', log, t', told, hrun, hlib, sameTable GossipLoop.usualClocks_sampleGossip hrun hlib⟩

/-- Three requests in thirty seconds, and a hash that none of them asks for. -/
theorem asked_firstPart_sample : ∃ s' log,
    run sampleGossipEnv (start sampleGossipEnv 0 0) sampleGossip = .ok (s', log) ∧
      GossipLoop.requestsTo sampleGossipEnv.entrypoint log =
        (requestsOf sampleGossipEnv 0 sampleGossip).map PullRequest.bytes ∧
      ∀ message ∈ requestsOf sampleGossipEnv 0 sampleGossip,
        ¬ message.filter.Matches 0x923456789abcdef0 := by
  obtain ⟨s', log, hrun⟩ := exists_run_sampleGossip
  have hmask : GossipLoop.MaskBits sampleGossipEnv 1 sampleGossip := fun w _ => rfl
  obtain ⟨hrequests, hmatches⟩ := asked_firstPart (by decide) hmask (List.mem_singleton_self _)
    (List.nodup_singleton _) (List.mem_singleton_self _) hrun
  refine ⟨s', log, hrun, hrequests, fun message hmem => ?_⟩
  rw [hmatches message hmem]
  decide +kernel

end Standalone

end Sg32
