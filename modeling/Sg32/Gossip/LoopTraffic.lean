/-
What the gossip loop sends and tells (`run_gossip_loop` in `lib.rs`).

A peer is known by an address that some value named, and is never forgotten.
The entrypoint gets every message of every round, each other peer one message
of each round, in turn.  The main loop is told of the contact infos that are in
the table when it is pruned.

* `run_peers` — which peers are known;
* `run_requestsTo` — exactly which requests an address gets;
* `asked_eachHash` — every peer is asked for every hash;
* `mem_reports_iff`, `told_iff` — what is told, and when;
* `quiet_of_noGap` — nothing is asked for or told while datagrams keep coming.
-/
import Sg32.Gossip.Loop

namespace Sg32

open Rust Bytes Reactor

namespace GossipLoop

variable {F : Type} {env : GossipEnv F} {s s' mid : GossipLoop} {e : GossipEvent F}
  {events : List (GossipEvent F)} {out log : List GossipOutput} {now now' : ℕ}

/-! ### Peers -/

/-- What a call leaves in the table was there before, or is merged now. -/
theorem lookup_call {build : Build} {table table' : CrdsTable} {c : CrdsTable.TableCall}
    (h : CrdsTable.call build table c = .ok table') {pk : Pubkey} {value : CrdsValue}
    (hvalue : table'.entries.lookup pk = some value) :
    c = .merge value ∨ table.entries.lookup pk = some value := by
  cases c with
  | merge incoming =>
    cases h
    rw [CrdsTable.merge_eq] at hvalue
    by_cases hpk : pk = incoming.pubkey
    · subst hpk
      rw [NewestWins.lookup_merge_self] at hvalue
      split at hvalue
      · rename_i old hold
        split_ifs at hvalue
        · exact .inl (congrArg _ (Option.some.inj hvalue))
        · exact .inr (hold.trans hvalue)
      · exact .inl (congrArg _ (Option.some.inj hvalue))
    · rw [NewestWins.lookup_merge_ne _ hpk] at hvalue
      exact .inr hvalue
  | prune since =>
    obtain ⟨cutoff, -, htable⟩ := bind_eq_ok.mp h
    cases htable
    exact .inr (NewestWins.lookup_retain_eq_some_iff.mp hvalue).1

theorem lookup_calls {build : Build} {table table' : CrdsTable} {calls : List CrdsTable.TableCall}
    (h : calls.foldlM (CrdsTable.call build) table = .ok table') {pk : Pubkey}
    {value : CrdsValue} (hvalue : table'.entries.lookup pk = some value) :
    value ∈ CrdsTable.merged calls ∨ table.entries.lookup pk = some value := by
  induction calls generalizing table with
  | nil =>
    cases h
    exact .inr hvalue
  | cons c calls ih =>
    rw [List.foldlM_cons] at h
    obtain ⟨mid, hmid, hrest⟩ := bind_eq_ok.mp h
    rcases ih hrest with hmem | hold
    · exact .inl (CrdsTable.mem_merged.mpr (List.mem_cons_of_mem c (CrdsTable.mem_merged.mp hmem)))
    · rcases lookup_call hmid hold with rfl | hold
      · exact .inl (CrdsTable.mem_merged.mpr List.mem_cons_self)
      · exact .inr hold

/-- What is in the table has arrived. -/
theorem arrived_of_lookup (h : run env (start env now now') events = .ok (s', log)) {pk : Pubkey}
    {value : CrdsValue} (hvalue : s'.crds_table.entries.lookup pk = some value) :
    value ∈ events.flatMap (arrived env) := by
  rcases lookup_calls (run_table h) hvalue with hmem | hnone
  · rwa [merged_callsOf] at hmem
  · cases hnone

/-- An address that an event makes the loop find is listed in the table. -/
theorem listed_of_foundPeers {last : ℕ} {table : CrdsTable} {addr : SocketAddr}
    (h : addr ∈ foundPeers env last e table) : ∃ pk, (pk, addr) ∈ table.getContactInfos := by
  cases e with
  | recvError => cases h
  | datagram bytes sender sent =>
    rw [foundPeers] at h
    split_ifs at h
    · obtain ⟨⟨pk, _⟩, hmem, rfl⟩ := List.mem_map.mp h
      exact ⟨pk, (List.mem_filter.mp hmem).1⟩
    · cases h
  | wake w =>
    rw [foundPeers] at h
    split_ifs at h
    · obtain ⟨⟨pk, _⟩, hmem, rfl⟩ := List.mem_map.mp h
      exact ⟨pk, hmem⟩
    · cases h

/-- An address that the table lists for another node is found in this turn, or
the table is as it was. -/
theorem foundPeers_of_listed (hturn : Turn env s e s' out) {pk : Pubkey} {addr : SocketAddr}
    (hpk : pk ≠ env.node.verifyingKey) (hlisted : (pk, addr) ∈ s'.crds_table.getContactInfos) :
    addr ∈ foundPeers env s.last_prune e s'.crds_table ∨ s'.crds_table = s.crds_table := by
  have htable := hturn.table
  cases e with
  | recvError =>
    exact .inr (Except.ok.inj htable).symm
  | datagram bytes sender sent =>
    rw [foundPeers]
    rw [tableCalls, arrived] at htable
    cases hlist : (messageOf env (.datagram bytes sender sent)).bind listOf with
    | none =>
      rw [hlist] at htable
      exact .inr (Except.ok.inj htable).symm
    | some values =>
      refine .inl (List.mem_map.mpr ⟨(pk, addr), List.mem_filter.mpr ⟨hlisted, ?_⟩, rfl⟩)
      exact decide_eq_true hpk
  | wake w =>
    rw [foundPeers]
    rw [tableCalls] at htable
    by_cases hdue : PruneDue s.last_prune w
    · rw [if_pos hdue]
      exact .inl (List.mem_map.mpr ⟨(pk, addr), hlisted, rfl⟩)
    · rw [if_neg hdue] at htable
      exact .inr (Except.ok.inj htable).symm

/-- **Which peers are known**: the entrypoint, addresses that arrived values
named, and all addresses that the table lists for other nodes. -/
theorem run_peers (h : run env (start env now now') events = .ok (s', log)) :
    env.entrypoint ∈ s'.known_peers ∧
      (∀ addr ∈ s'.known_peers, addr = env.entrypoint ∨
        ∃ value ∈ events.flatMap (arrived env), value.gossipAddr = some addr) ∧
      ∀ pk addr, pk ≠ env.node.verifyingKey →
        (pk, addr) ∈ s'.crds_table.getContactInfos → addr ∈ s'.known_peers := by
  have hentry : env.entrypoint ∈ (start env now now').known_peers := List.mem_singleton_self _
  refine ⟨(run_eq_ok hentry h).peers hentry, ?_, ?_⟩
  · induction events using List.reverseRecOn generalizing s' log with
    | nil =>
      cases h
      exact fun addr haddr => .inl (List.mem_singleton.mp haddr)
    | append_singleton events e ih =>
      intro addr haddr
      obtain ⟨mid, first, last, hfirst, hstep, -⟩ := react_concat_eq_ok.mp h
      have hturn := step_eq_ok ((run_eq_ok hentry hfirst).peers hentry) hstep
      rw [hturn.peers, List.mem_union_iff] at haddr
      rcases haddr with hfound | hknown
      · obtain ⟨pk, hlisted⟩ := listed_of_foundPeers hfound
        obtain ⟨value, hvalue, haddr⟩ := CrdsTable.mem_getContactInfos.mp hlisted
        exact .inr ⟨value, arrived_of_lookup h hvalue, haddr⟩
      · refine (ih hfirst addr hknown).imp_right fun ⟨value, hmem, haddr⟩ => ⟨value, ?_, haddr⟩
        rw [List.flatMap_append]
        exact List.mem_append_left _ hmem
  · refine react_invariant (fun _ s' _ => env.entrypoint ∈ s'.known_peers ∧
      ∀ pk addr, pk ≠ env.node.verifyingKey →
        (pk, addr) ∈ s'.crds_table.getContactInfos → addr ∈ s'.known_peers) ?_ ?_ h |>.2
    · refine ⟨hentry, fun pk addr _ hlisted => ?_⟩
      obtain ⟨value, hvalue, -⟩ := CrdsTable.mem_getContactInfos.mp hlisted
      cases hvalue
    · rintro seen mid first e next new ⟨hknown, hmid⟩ hstep
      have hturn := step_eq_ok hknown hstep
      rw [hturn.peers]
      refine ⟨List.mem_union_iff.mpr (.inr hknown), fun pk addr hpk hlisted => ?_⟩
      rw [List.mem_union_iff]
      refine (foundPeers_of_listed hturn hpk hlisted).imp_right fun hsame => ?_
      rw [hsame] at hlisted
      exact hmid pk addr hpk hlisted

/-! ### Requests -/

/-- The requests that an address gets, in order. -/
def requestsTo (peer : SocketAddr) (log : List GossipOutput) : List Bytes :=
  log.filterMap fun
    | .pullRequest d => if d.dest = peer then some d.bytes else none
    | _ => none

theorem requestsTo_append (peer : SocketAddr) (log more : List GossipOutput) :
    requestsTo peer (log ++ more) = requestsTo peer log ++ requestsTo peer more :=
  List.filterMap_append

theorem requestsTo_pullRequests (peer : SocketAddr) (packets : List Datagram) :
    requestsTo peer (packets.map .pullRequest) =
      (packets.filter fun d => d.dest = peer).map Datagram.bytes := by
  rw [requestsTo, List.filterMap_map, ← List.filterMap_eq_map, List.filterMap_filter]
  refine List.filterMap_congr fun d _ => ?_
  simp

/-- The requests of one round that an address gets: all, or one in turn. -/
def roundRequests (env : GossipEnv F) (peer : SocketAddr) (pull_round : UInt64)
    (messages : List (PullRequest env.pull)) : List Bytes :=
  if peer = env.entrypoint then messages.map PullRequest.bytes
  else (rotatingMessage messages pull_round).toList.map PullRequest.bytes

theorem pullPackets_to {known_peers : List SocketAddr} (hnodup : known_peers.Nodup)
    {peer : SocketAddr} (hpeer : peer ∈ known_peers) (pull_round : UInt64)
    (messages : List (PullRequest env.pull)) :
    ((pullPackets env known_peers pull_round messages).filter fun d => d.dest = peer).map
      Datagram.bytes = roundRequests env peer pull_round messages := by
  rw [pullPackets, List.filter_append, roundRequests]
  by_cases hentry : peer = env.entrypoint
  · -- the others get nothing that is meant for the entrypoint
    have hothers : ((known_peers.filter (· ≠ env.entrypoint)).filterMap fun peer =>
        (rotatingMessage messages pull_round).map fun message =>
          (⟨peer, message.bytes⟩ : Datagram)).filter (fun d => d.dest = peer) = [] := by
      refine List.filter_eq_nil_iff.mpr fun d hd => ?_
      obtain ⟨other, hother, hd⟩ := List.mem_filterMap.mp hd
      obtain ⟨message, -, rfl⟩ := Option.map_eq_some_iff.mp hd
      have hne := of_decide_eq_true (List.mem_filter.mp hother).2
      rw [hentry]
      simpa using hne
    rw [if_pos hentry, hothers, List.append_nil, List.filter_eq_self.mpr, List.map_map]
    · rfl
    · intro d hd
      obtain ⟨message, -, rfl⟩ := List.mem_map.mp hd
      exact decide_eq_true hentry.symm
  · have hfirst : (messages.map fun message =>
        (⟨env.entrypoint, message.bytes⟩ : Datagram)).filter (fun d => d.dest = peer) = [] := by
      refine List.filter_eq_nil_iff.mpr fun d hd => ?_
      obtain ⟨message, -, rfl⟩ := List.mem_map.mp hd
      simpa using Ne.symm hentry
    rw [if_neg hentry, hfirst, List.nil_append]
    cases rotatingMessage messages pull_round with
    | none => simp
    | some message =>
      -- the peer is known once
      have hone : (known_peers.filter (· ≠ env.entrypoint)).filter (· = peer) = [peer] := by
        rw [List.filter_eq, List.count_eq_one_of_mem (hnodup.filter _)]
        · rfl
        · exact List.mem_filter.mpr ⟨hpeer, decide_eq_true hentry⟩
      have hmap : (known_peers.filter (· ≠ env.entrypoint)).filterMap (fun peer =>
          (some message).map fun message => (⟨peer, message.bytes⟩ : Datagram)) =
            (known_peers.filter (· ≠ env.entrypoint)).map fun peer => ⟨peer, message.bytes⟩ :=
        congrFun List.filterMap_eq_map _
      rw [hmap, List.filter_map]
      show List.map Datagram.bytes (List.map _
        ((known_peers.filter (· ≠ env.entrypoint)).filter (· = peer))) = _
      rw [hone]
      rfl

/-- What one turn sends to an address that is known. -/
theorem turn_requestsTo (hturn : Turn env s e s' out) (hnodup : s.known_peers.Nodup)
    {peer : SocketAddr} (hpeer : peer ∈ s.known_peers) :
    requestsTo peer out =
      (roundFor env s.last_pull e).flatMap (roundRequests env peer s.pull_round) := by
  have hpong : requestsTo peer ((pongFor env e).toList.map .pong) = [] := by
    rw [requestsTo, List.filterMap_map]
    exact List.filterMap_eq_nil_iff.mpr fun d _ => rfl
  have hreport : requestsTo peer (reportFor s.last_prune e s'.crds_table) = [] := by
    refine List.filterMap_eq_nil_iff.mpr fun o ho => ?_
    cases e with
    | recvError => cases ho
    | datagram bytes sender sent => cases ho
    | wake w =>
      rw [reportFor] at ho
      split_ifs at ho
      · rcases List.mem_append.mp ho with ho | ho <;>
          obtain ⟨_, -, rfl⟩ := List.mem_map.mp ho <;> rfl
      · cases ho
  rw [hturn.out, requestsTo_append, requestsTo_append, hpong, hreport, List.append_nil,
    List.nil_append, requestsTo_pullRequests, List.filter_flatMap, List.map_flatMap]
  exact List.flatMap_congr fun messages _ => pullPackets_to hnodup hpeer s.pull_round messages

theorem foldl_round {α : Type} (pull_round : UInt64) (rounds : List α) :
    rounds.foldl (fun pull_round _ => pull_round + 1) pull_round =
      pullRoundAfter pull_round rounds.length := by
  induction rounds using List.reverseRecOn with
  | nil => rfl
  | append_singleton rounds round ih => rw [List.foldl_append, ih, List.length_append]; rfl

/-- An event makes one round, or none. -/
theorem roundFor_cases (env : GossipEnv F) (last : ℕ) (e : GossipEvent F) :
    roundFor env last e = [] ∨ ∃ messages, roundFor env last e = [messages] := by
  cases e with
  | recvError => exact .inl rfl
  | datagram bytes sender sent => exact .inl rfl
  | wake w =>
    rw [roundFor]
    split_ifs
    · cases messagesFor env w with
      | none => exact .inl rfl
      | some messages => exact .inr ⟨messages, rfl⟩
    · exact .inl rfl

/-- **Which requests an address gets**: round after round, all of them if it is
the entrypoint, and else one in turn. -/
theorem run_requestsTo (hnodup : s.known_peers.Nodup) (hentry : env.entrypoint ∈ s.known_peers)
    {peer : SocketAddr} (hpeer : peer ∈ s.known_peers) (h : run env s events = .ok (s', log)) :
    requestsTo peer log = collect (fun pull_round _ => pull_round + 1) (roundRequests env peer)
      s.pull_round (roundsOf env s.last_pull events) := by
  induction events using List.reverseRecOn generalizing s' log with
  | nil =>
    cases h
    rfl
  | append_singleton events e ih =>
    obtain ⟨mid, first, out, hfirst, hstep, rfl⟩ := react_concat_eq_ok.mp h
    have hmid := run_eq_ok hentry hfirst
    have hturn := step_eq_ok (hmid.peers hentry) hstep
    rw [requestsTo_append, ih hfirst, turn_requestsTo hturn (hmid.nodup hnodup) (hmid.peers hpeer),
      hmid.pull_round, hmid.last_pull]
    show _ = collect _ _ s.pull_round (collect pullTime (roundFor env) s.last_pull (events ++ [e]))
    rw [collect_concat, collect_append, foldl_round]
    rcases roundFor_cases env (events.foldl pullTime s.last_pull) e with hnone | ⟨messages, hone⟩
    · rw [hnone]
      rfl
    · rw [hone, List.flatMap_singleton, collect, collect, List.append_nil]

/-- Every pull of these events has this many bits to its partition. -/
def MaskBits (env : GossipEnv F) (mask_bits : UInt32) (events : List (GossipEvent F)) : Prop :=
  ∀ w, .wake w ∈ events → contactMaskBits env.pull (ownInfo env w) = some mask_bits

/-- The messages of a round ask for the parts in order. -/
theorem matches_of_mem_rounds {mask_bits : UInt32} (hbits : mask_bits.toNat ≤ 63)
    (hmask : MaskBits env mask_bits events) {last : ℕ} {messages : List (PullRequest env.pull)}
    (h : messages ∈ roundsOf env last events) :
    messages.length = 2 ^ mask_bits.toNat ∧ ∀ seed message, messages[seed]? = some message →
      ∀ hash, message.filter.Matches hash ↔ seed = seedOf mask_bits hash := by
  obtain ⟨before, e, after, rfl, hmem⟩ := mem_collect.mp h
  cases e with
  | recvError => cases hmem
  | datagram bytes sender sent => cases hmem
  | wake w =>
    have hcontact := hmask w (by simp)
    rw [roundFor] at hmem
    split_ifs at hmem
    · rw [Option.mem_toList, messagesFor] at hmem
      split at hmem
      · rename_i messages' hbuilt
        cases hmem
        exact getElem?_messages hbits hcontact hbuilt
      · cases hmem
    · cases hmem

/-- **Every peer is asked for every hash**: the entrypoint in any round, and any
other peer within as many rounds as there are parts. -/
theorem asked_eachHash {mask_bits : UInt32} (hbits : mask_bits.toNat ≤ 63)
    (hmask : MaskBits env mask_bits events) (hnodup : s.known_peers.Nodup)
    (hentry : env.entrypoint ∈ s.known_peers) {peer : SocketAddr} (hpeer : peer ∈ s.known_peers)
    (h : run env s events = .ok (s', log))
    (hrounds : 2 ^ mask_bits.toNat ≤ (roundsOf env s.last_pull events).length) (hash : UInt64) :
    ∃ message : PullRequest env.pull, message.bytes ∈ requestsTo peer log ∧
      message.filter.Matches hash := by
  have hseed := seedOf_lt hbits hash
  -- the round in which it is the turn of the part of this hash
  obtain ⟨k, ⟨hk, hturn⟩, -⟩ := existsUnique_turn hseed s.pull_round.toNat
  have hlt := hk.trans_le hrounds
  obtain ⟨hlength, hmatches⟩ := matches_of_mem_rounds hbits hmask (List.getElem_mem hlt)
  rw [← hlength] at hseed
  refine ⟨_, ?_, (hmatches _ _ (List.getElem?_eq_getElem hseed) hash).mpr rfl⟩
  rw [run_requestsTo hnodup hentry hpeer h, mem_collect]
  have hsplit : roundsOf env s.last_pull events = (roundsOf env s.last_pull events).take k ++
      (roundsOf env s.last_pull events)[k] :: (roundsOf env s.last_pull events).drop (k + 1) := by
    rw [List.getElem_cons_drop hlt, List.take_append_drop]
  refine ⟨_, _, _, hsplit, ?_⟩
  rw [foldl_round, List.length_take_of_le hlt.le, roundRequests]
  split_ifs with hpeer'
  · exact List.mem_map_of_mem (List.getElem_mem hseed)
  · rw [rotatingMessage_eq hbits hlength, hturn, List.getElem?_eq_getElem hseed]
    exact List.mem_singleton_self _

/-! ### Reports -/

/-- What is told of a table. -/
def IsReport : GossipOutput → Prop
  | .latestSlot _ | .contactInfo _ => True
  | .pong _ | .pullRequest _ => False

/-- What one turn tells. -/
theorem mem_turn_iff (hturn : Turn env s e s' out) {o : GossipOutput} (ho : IsReport o) :
    o ∈ out ↔ ∃ w, e = .wake w ∧ PruneDue s.last_prune w ∧
      o ∈ report s'.crds_table w.latest_slot := by
  rw [hturn.out, List.mem_append, List.mem_append]
  constructor
  · rintro ((hpong | hpull) | hreport)
    · obtain ⟨d, -, rfl⟩ := List.mem_map.mp hpong
      cases ho
    · obtain ⟨d, -, rfl⟩ := List.mem_map.mp hpull
      cases ho
    · cases e with
      | recvError => cases hreport
      | datagram bytes sender sent => cases hreport
      | wake w =>
        rw [reportFor] at hreport
        split_ifs at hreport with hdue
        · exact ⟨w, rfl, hdue, hreport⟩
        · cases hreport
  · rintro ⟨w, rfl, hdue, hreport⟩
    refine .inr ?_
    rwa [reportFor, if_pos hdue]

/-- **What is told, and when**: after each prune that is due, the slot and the
contact infos of the table, which holds the newest values. -/
theorem mem_reports_iff (hclocks : UsualClocks env events)
    (h : run env (start env now now') events = .ok (s', log)) {o : GossipOutput}
    (ho : IsReport o) :
    o ∈ log ↔ ∃ before w after, events = before ++ .wake w :: after ∧
      PruneDue (before.foldl pruneTime now') w ∧
      o ∈ report (CrdsTable.mergeAll (before.flatMap (arrived env))) w.latest_slot := by
  have hentry : env.entrypoint ∈ (start env now now').known_peers := List.mem_singleton_self _
  -- the table that a prune of the run leaves
  have hprune : ∀ {before w after mid first next out}, events = before ++ .wake w :: after →
      run env (start env now now') before = .ok (mid, first) →
      step env mid (.wake w) = .ok (next, out) → Turn env mid (.wake w) next out ∧
        mid.last_prune = before.foldl pruneTime now' ∧
        next.crds_table = CrdsTable.mergeAll (before.flatMap (arrived env)) := by
    intro before w after mid first next out hevents hbefore hstep
    have hmid := run_eq_ok hentry hbefore
    have hnext : run env (start env now now') (before ++ [.wake w]) = .ok (next, first ++ out) :=
      react_concat_eq_ok.mpr ⟨mid, first, out, hbefore, hstep, rfl⟩
    have hclocks' : UsualClocks env (before ++ [.wake w]) := by
      rw [hevents, List.append_cons] at hclocks
      exact hclocks.of_append
    have htable := table_eq_mergeAll hclocks' hnext
    rw [List.flatMap_append, show [GossipEvent.wake w].flatMap (arrived env) = [] from rfl,
      List.append_nil] at htable
    exact ⟨step_eq_ok (hmid.peers hentry) hstep, hmid.last_prune, htable⟩
  rw [mem_log h]
  constructor
  · rintro ⟨before, e, after, mid, first, next, out, hevents, hbefore, hstep, hout⟩
    have hmid := run_eq_ok hentry hbefore
    obtain ⟨w, rfl, hdue, hreport⟩ :=
      (mem_turn_iff (step_eq_ok (hmid.peers hentry) hstep) ho).mp hout
    obtain ⟨-, hlast, htable⟩ := hprune hevents hbefore hstep
    rw [hlast] at hdue
    rw [htable] at hreport
    exact ⟨before, w, after, hevents, hdue, hreport⟩
  · rintro ⟨before, w, after, rfl, hdue, hreport⟩
    obtain ⟨mid, first, rest, hbefore, hrest, -⟩ := react_append_eq_ok.mp h
    obtain ⟨next, out, tail, hstep, -, -⟩ := react_cons_eq_ok.mp hrest
    obtain ⟨hturn, hlast, htable⟩ := hprune rfl hbefore hstep
    rw [← hlast] at hdue
    rw [← htable] at hreport
    exact ⟨before, _, after, mid, first, next, out, rfl, hbefore, hstep,
      (mem_turn_iff hturn ho).mpr ⟨w, rfl, hdue, hreport⟩⟩

theorem contactInfo_mem_report {table : CrdsTable} {latest_slot : UInt64} {info : ContactInfo} :
    .contactInfo info ∈ report table latest_slot ↔
      ∃ pk value, table.entries.lookup pk = some value ∧ value.data = .contactInfo info := by
  rw [report, List.mem_append, List.mem_map, List.mem_map, CrdsTable.allContactInfos]
  constructor
  · rintro (⟨_, -, hslot⟩ | ⟨⟨pk, info'⟩, hmem, hinfo⟩)
    · cases hslot
    · cases hinfo
      obtain ⟨⟨pk', value⟩, hentry, hvalue⟩ := List.mem_filterMap.mp hmem
      refine ⟨pk', value, AList.mem_lookup_iff.mpr hentry, ?_⟩
      split at hvalue
      · rename_i hdata
        cases hvalue
        exact hdata
      · cases hvalue
  · rintro ⟨pk, value, hlookup, hdata⟩
    refine .inr ⟨(pk, info), List.mem_filterMap.mpr ⟨⟨pk, value⟩, ?_, ?_⟩, rfl⟩
    · exact AList.mem_lookup_iff.mp hlookup
    · simp [hdata]

theorem latestSlot_mem_report {table : CrdsTable} {latest_slot slot : UInt64} :
    .latestSlot slot ∈ report table latest_slot ↔
      latest_slot < slot ∧ table.getHighestSlot = some slot := by
  rw [report, List.mem_append, List.mem_map, List.mem_map, storedSlot]
  simp [Option.filter_eq_some_iff, and_comm]

/-- What is told was in the table at the end of some turn. -/
theorem report_of_mem (h : run env (start env now now') events = .ok (s', log)) {o : GossipOutput}
    (ho : IsReport o) (hmem : o ∈ log) : ∃ before next first latest_slot,
      before <+: events ∧ run env (start env now now') before = .ok (next, first) ∧
      o ∈ report next.crds_table latest_slot := by
  have hentry : env.entrypoint ∈ (start env now now').known_peers := List.mem_singleton_self _
  obtain ⟨before, e, after, mid, first, next, out, rfl, hbefore, hstep, hout⟩ :=
    (mem_log h).mp hmem
  have hturn := step_eq_ok ((run_eq_ok hentry hbefore).peers hentry) hstep
  obtain ⟨w, rfl, -, hreport⟩ := (mem_turn_iff hturn ho).mp hout
  refine ⟨before ++ [.wake w], next, first ++ out, w.latest_slot, ?_,
    react_concat_eq_ok.mpr ⟨mid, first, out, hbefore, hstep, rfl⟩, hreport⟩
  exact ⟨after, List.append_cons before _ after |>.symm⟩

theorem arrived_mono {before : List (GossipEvent F)} (hseen : before <+: events)
    {value : CrdsValue} (hvalue : value ∈ before.flatMap (arrived env)) :
    value ∈ events.flatMap (arrived env) := by
  obtain ⟨e, he, hvalue⟩ := List.mem_flatMap.mp hvalue
  exact List.mem_flatMap.mpr ⟨e, hseen.subset he, hvalue⟩

/-- A contact info that is told of has arrived. -/
theorem arrived_of_contactInfo (h : run env (start env now now') events = .ok (s', log))
    {info : ContactInfo} (hmem : .contactInfo info ∈ log) :
    ∃ value ∈ events.flatMap (arrived env), value.data = .contactInfo info := by
  obtain ⟨before, next, first, latest_slot, hseen, hbefore, hreport⟩ :=
    report_of_mem (o := .contactInfo info) h trivial hmem
  obtain ⟨pk, value, hlookup, hdata⟩ := contactInfo_mem_report.mp hreport
  exact ⟨value, arrived_mono hseen (arrived_of_lookup hbefore hlookup), hdata⟩

/-- A slot that is stored was named by a value that has arrived. -/
theorem arrived_of_latestSlot (h : run env (start env now now') events = .ok (s', log))
    {slot : UInt64} (hmem : .latestSlot slot ∈ log) :
    ∃ value ∈ events.flatMap (arrived env), CrdsTable.slotOf value = some slot := by
  obtain ⟨before, next, first, latest_slot, hseen, hbefore, hreport⟩ :=
    report_of_mem (o := .latestSlot slot) h trivial hmem
  have hhighest := (latestSlot_mem_report.mp hreport).2
  obtain ⟨⟨pk, value⟩, hentry, hslot⟩ :=
    List.mem_filterMap.mp (List.max?_mem hhighest)
  have hvalue := arrived_of_lookup hbefore (AList.mem_lookup_iff.mpr hentry)
  exact ⟨value, arrived_mono hseen hvalue, hslot⟩

/-- **Which contact infos the main loop is told of**: those that were the newest
value of their node when a prune was due. -/
theorem told_iff (hclocks : UsualClocks env events)
    (h : run env (start env now now') events = .ok (s', log)) (info : ContactInfo) :
    .contactInfo info ∈ log ↔ ∃ before w after, events = before ++ .wake w :: after ∧
      PruneDue (before.foldl pruneTime now') w ∧
      ∃ earlier value later, before.flatMap (arrived env) = earlier ++ value :: later ∧
        value.data = .contactInfo info ∧ CrdsTable.EarliestNewest earlier value later := by
  rw [mem_reports_iff (o := .contactInfo info) hclocks h trivial]
  simp only [contactInfo_mem_report, CrdsTable.lookup_mergeAll_eq_some_iff]
  constructor
  · rintro ⟨before, w, after, hevents, hdue, pk, value, ⟨earlier, later, hsplit, -, hnewest⟩, hdata⟩
    exact ⟨before, w, after, hevents, hdue, earlier, value, later, hsplit, hdata, hnewest⟩
  · rintro ⟨before, w, after, hevents, hdue, earlier, value, later, hsplit, hdata, hnewest⟩
    exact ⟨before, w, after, hevents, hdue, value.pubkey, value, ⟨earlier, later, hsplit, rfl,
      hnewest⟩, hdata⟩

/-- **Which slots are stored**: the highest that the newest values named when a
prune was due, if it was above the one that was loaded. -/
theorem stored_iff (hclocks : UsualClocks env events)
    (h : run env (start env now now') events = .ok (s', log)) (slot : UInt64) :
    .latestSlot slot ∈ log ↔ ∃ before w after, events = before ++ .wake w :: after ∧
      PruneDue (before.foldl pruneTime now') w ∧ w.latest_slot < slot ∧
      (CrdsTable.mergeAll (before.flatMap (arrived env))).getHighestSlot = some slot := by
  rw [mem_reports_iff (o := .latestSlot slot) hclocks h trivial]
  simp only [latestSlot_mem_report]

/-! ### Starvation -/

/-- How long the loop sleeps, in milliseconds. -/
def SLEEP_MILLIS : ℕ := 500

/-- The end of a sleep. -/
def Wakes (e : GossipEvent F) : Prop := ∃ w, e = .wake w

/-- What arrives is a datagram, or an error of the socket. -/
def Arrives : GossipEvent F → Prop
  | .wake _ => False
  | _ => True

/-- The answer to a ping. -/
def IsPong : GossipOutput → Prop
  | .pong _ => True
  | _ => False

theorem isPong_of_arrives (hpeers : env.entrypoint ∈ s.known_peers)
    (harrives : ∀ e ∈ events, Arrives e) (h : run env s events = .ok (s', log)) :
    ∀ o ∈ log, IsPong o := by
  intro o ho
  obtain ⟨before, e, after, mid, first, next, out, rfl, hbefore, hstep, ho⟩ := (mem_log h).mp ho
  have hturn := step_eq_ok ((run_eq_ok hpeers hbefore).peers hpeers) hstep
  rw [hturn.out] at ho
  cases e with
  | recvError => cases ho
  | datagram bytes sender sent =>
    simp only [roundFor, reportFor, List.flatMap_nil, List.map_nil, List.append_nil] at ho
    obtain ⟨d, -, rfl⟩ := List.mem_map.mp ho
    trivial
  | wake w => exact absurd (harrives (.wake w) (by simp)) id

/-- **While something arrives in every half second, nothing is asked for and
nothing is told**, whatever it is that arrives. -/
theorem quiet_of_noGap {time : ℕ} {arrivals : List (ℕ × GossipEvent F)}
    {turns : List (ℕ × Option (GossipEvent F))} (hpeers : env.entrypoint ∈ s.known_peers)
    (harrives : ∀ a ∈ arrivals, Arrives a.2)
    (hschedule : Schedule SLEEP_MILLIS time arrivals turns)
    (hgap : NoGap SLEEP_MILLIS time arrivals) (hfits : List.Forall₂ (TurnOf Wakes) turns events)
    (h : run env s (events.take arrivals.length) = .ok (s', log)) : ∀ o ∈ log, IsPong o := by
  refine isPong_of_arrives hpeers (fun e he => ?_) h
  obtain ⟨a, ha, rfl⟩ := hschedule.mem_of_noGap hgap hfits e he
  exact harrives a ha

end GossipLoop

/-! ### A sample run -/

/-- The contact info of a node, in a value. -/
def gossipedContact : CrdsValue where
  signature := Vector.replicate 64 7
  data := .contactInfo
    { pubkey := CrdsTable.samplePubkey
      wallclock := 1700000000000
      addrs := [.v4 ⟨#[10, 0, 0, 3], rfl⟩]
      sockets := [{ key := 0, index := 0, offset := 8001 }, { key := 4, index := 0, offset := 7 }]
      rest := le64 1700000000000000 ++ le16 7016 ++ [3, 0, 0] ++ le32 0 ++ le32 0 ++ [3] }
  hash := Vector.replicate 32 0

/-- What another node takes for the heaviest fork. -/
def gossipedFork : CrdsValue where
  signature := Vector.replicate 64 8
  data := .restartHeaviestFork
    { node := Vector.replicate 32 2
      wallclock := 1700000000000
      rest := List.replicate 32 6 ++ le64 5 ++ le16 7016
      last_slot := 42 }
  hash := Vector.replicate 32 0

/-- A pull response with these two values. -/
def gossipedResponse : Bytes :=
  le32 1 ++ List.replicate 32 9 ++ le64 2 ++
    (List.replicate 64 7 ++ le32 11 ++ CrdsTable.samplePubkey.toList ++
      ShortVec.encodeLen 1700000000000 ++ le64 1700000000000000 ++ le16 7016 ++ [3, 0, 0] ++
      le32 0 ++ le32 0 ++ [3] ++ [1] ++ le32 0 ++ [10, 0, 0, 3] ++
      [2] ++ [0, 0] ++ ShortVec.encodeLen 8001 ++ [4, 0, 7] ++ [0]) ++
    (List.replicate 64 8 ++ le32 13 ++ List.replicate 32 2 ++ le64 1700000000000 ++ le64 42 ++
      List.replicate 32 6 ++ le64 5 ++ le16 7016)

/-- Libraries that know this pull response. -/
def gossipedLibs : GossipLibs (gossipTypes Unit) where
  deserialize bytes :=
    if bytes = gossipedResponse then
      some (.pullResponse (Vector.replicate 32 9) [gossipedContact, gossipedFork])
    else none
  deserializeValue _ := none
  sizeOfValue _ := none
  deserializeData _ := none
  sizeOfData _ := none

def sampleGossipEnv : GossipEnv Unit where
  libs := gossipedLibs
  pull := sampleEnv
  sha256 _ := Vector.replicate 32 1
  build := .debug
  node := { verifyingKey := Vector.replicate 32 3, sign := fun _ => Vector.replicate 64 5 }
  entrypoint := { ip := .v4 (Vector.replicate 4 2), port := 8001 }
  gossip_addr := { ip := .v4 (Vector.replicate 4 1), port := 8001 }

/-- The end of a sleep at some time, with a pull and a prune if they are due. -/
def sampleWake (now : ℕ) : Wake Unit where
  pull_check := now
  pull_done := now
  prune_check := now
  prune_done := now
  wallclock := 1700000000000
  rest := []
  probe := ()
  bloom _ := ()
  since := CrdsTable.sampleSince
  latest_slot := 0

/-- A pull response of the entrypoint, and three sleeps. -/
def sampleGossip : List (GossipEvent Unit) :=
  [.datagram gossipedResponse sampleGossipEnv.entrypoint true, .wake (sampleWake 10000),
    .wake (sampleWake 20000), .wake (sampleWake 30000)]

namespace GossipLoop

theorem arrived_sampleGossip :
    sampleGossip.flatMap (arrived sampleGossipEnv) = [gossipedContact, gossipedFork] := by
  decide +kernel

theorem usualClocks_sampleGossip : UsualClocks sampleGossipEnv sampleGossip := by
  intro w hw
  rw [arrived_sampleGossip]
  have hsince : w.since = CrdsTable.sampleSince := by
    simp only [sampleGossip, List.mem_cons, List.not_mem_nil, or_false, reduceCtorEq, false_or,
      GossipEvent.wake.injEq] at hw
    rcases hw with rfl | rfl | rfl <;> rfl
  rw [hsince]
  refine ⟨by decide, fun value hvalue => ?_⟩
  rcases List.mem_cons.mp hvalue with rfl | hvalue
  · decide
  · rw [List.mem_singleton.mp hvalue]
    decide

theorem exists_run_of_isSome {s : GossipLoop} {events : List (GossipEvent Unit)}
    (h : (run sampleGossipEnv s events).toOption.isSome = true) :
    ∃ s' log, run sampleGossipEnv s events = .ok (s', log) := by
  rcases hrun : run sampleGossipEnv s events with stop | ⟨s', log⟩
  · rw [hrun] at h
    cases h
  · exact ⟨s', log, rfl⟩

theorem exists_run_sampleGossip : ∃ s' log,
    run sampleGossipEnv (start sampleGossipEnv 0 0) sampleGossip = .ok (s', log) :=
  exists_run_of_isSome (by decide +kernel)

theorem run_newest_sample : ∃ s' log,
    run sampleGossipEnv (start sampleGossipEnv 0 0) sampleGossip = .ok (s', log) ∧
      s'.crds_table.entries.lookup CrdsTable.samplePubkey = some gossipedContact := by
  obtain ⟨s', log, hrun⟩ := exists_run_sampleGossip
  refine ⟨s', log, hrun, (run_newest usualClocks_sampleGossip hrun _ _).mpr ?_⟩
  refine ⟨[], [gossipedFork], arrived_sampleGossip, rfl, by simp, fun v hv hpk => ?_⟩
  rw [List.mem_singleton.mp hv] at hpk
  exact absurd hpk (by decide)

/-- Where the contact info says that its node takes gossip. -/
def gossipedAddr : SocketAddr := { ip := .v4 ⟨#[10, 0, 0, 3], rfl⟩, port := 8001 }

theorem run_peers_sample : ∃ s' log,
    run sampleGossipEnv (start sampleGossipEnv 0 0) sampleGossip = .ok (s', log) ∧
      gossipedAddr ∈ s'.known_peers := by
  obtain ⟨s', log, hrun⟩ := exists_run_sampleGossip
  obtain ⟨-, -, hlisted⟩ := run_peers hrun
  refine ⟨s', log, hrun, hlisted CrdsTable.samplePubkey _ (by decide) ?_⟩
  rw [table_eq_mergeAll usualClocks_sampleGossip hrun, arrived_sampleGossip,
    CrdsTable.mem_getContactInfos]
  exact ⟨gossipedContact, by decide +kernel, by decide +kernel⟩

/-- The loop when the contact info has arrived. -/
def sampleGossipLoop : GossipLoop where
  crds_table := CrdsTable.mergeAll [gossipedContact, gossipedFork]
  known_peers := [gossipedAddr, sampleGossipEnv.entrypoint]
  last_pull := 0
  last_prune := 0
  pull_round := 0

theorem asked_eachHash_sample : ∃ s' log,
    run sampleGossipEnv sampleGossipLoop (sampleGossip.drop 1) = .ok (s', log) ∧
      ∃ message : PullRequest sampleEnv, message.bytes ∈ requestsTo gossipedAddr log ∧
        message.filter.Matches 0x123456789abcdef0 := by
  obtain ⟨s', log, hrun⟩ : ∃ s' log,
      run sampleGossipEnv sampleGossipLoop (sampleGossip.drop 1) = .ok (s', log) :=
    exists_run_of_isSome (by decide +kernel)
  have hmask : MaskBits sampleGossipEnv 1 (sampleGossip.drop 1) := fun w _ => rfl
  exact ⟨s', log, hrun, asked_eachHash (by decide) hmask (by decide) (by decide) (by decide) hrun
    (by decide +kernel) 0x123456789abcdef0⟩

theorem told_iff_sample : ∃ s' log,
    run sampleGossipEnv (start sampleGossipEnv 0 0) sampleGossip = .ok (s', log) ∧
      ∃ info, gossipedContact.data = .contactInfo info ∧ .contactInfo info ∈ log := by
  obtain ⟨s', log, hrun⟩ := exists_run_sampleGossip
  refine ⟨s', log, hrun, _, rfl, (told_iff usualClocks_sampleGossip hrun _).mpr ?_⟩
  refine ⟨sampleGossip.take 2, sampleWake 20000, sampleGossip.drop 3, rfl, by decide, [],
    gossipedContact, [gossipedFork], by decide +kernel, rfl, by simp, fun v hv hpk => ?_⟩
  rw [List.mem_singleton.mp hv] at hpk
  exact absurd hpk (by decide)

theorem stored_iff_sample : ∃ s' log,
    run sampleGossipEnv (start sampleGossipEnv 0 0) sampleGossip = .ok (s', log) ∧
      .latestSlot 42 ∈ log := by
  obtain ⟨s', log, hrun⟩ := exists_run_sampleGossip
  exact ⟨s', log, hrun, (stored_iff usualClocks_sampleGossip hrun 42).mpr
    ⟨sampleGossip.take 2, sampleWake 20000, sampleGossip.drop 3, rfl, by decide, by decide,
      by decide +kernel⟩⟩

/-- Two errors of the socket in less than half a second, and the end of a sleep. -/
theorem quiet_of_noGap_sample : ∃ s' log,
    run sampleGossipEnv sampleGossipLoop [.recvError, .recvError] = .ok (s', log) ∧
      ∀ o ∈ log, IsPong o := by
  have hschedule : Schedule SLEEP_MILLIS 100
      [(400, (.recvError : GossipEvent Unit)), (800, .recvError)]
      [(400, some .recvError), (800, some .recvError), (1300, none)] :=
    @Schedule.arrival _ _ _ _ 0 _ _ _ (by decide) (@Schedule.arrival _ _ _ _ 0 _ _ _ (by decide)
      (@Schedule.wake _ _ _ 0 _ _ (by simp) (.stop _ _)))
  have hturns : List.Forall₂ (TurnOf Wakes)
      [(400, some (.recvError : GossipEvent Unit)), (800, some .recvError), (1300, none)]
      [.recvError, .recvError, .wake (sampleWake 1300)] :=
    .cons rfl (.cons rfl (.cons ⟨_, rfl⟩ .nil))
  have hrun : run sampleGossipEnv sampleGossipLoop [.recvError, .recvError] =
      .ok (sampleGossipLoop, []) := rfl
  exact ⟨_, _, hrun, quiet_of_noGap (by decide) (by simp [Arrives]) hschedule
    (by simp [NoGap, SLEEP_MILLIS]) hturns hrun⟩

end GossipLoop

end Sg32
