/-
The tasks of a node (`main` in `main.rs`).

Gossip and the main loop run side by side: gossip puts contact infos into a
channel, and it and another task store the latest slot that the main loop
loads.  When gossip ends, by a panic or an error, the main loop goes on.

* `run_projects` — in any interleaving each task does a run of its own, and
  contact infos are handed over in order, none lost and none twice;
* `run_node` — the blocks depend on the packets alone;
* `run_requests` — whom the node asks, and for which slots, comes out of values
  that were gossiped to it.
-/
import Sg32.Gossip.LoopTraffic
import Sg32.RepairTraffic

namespace Sg32

open Rust Bytes Reactor

/-- The tasks and what they share; `gossip` is gone when it has ended. -/
structure NodeSystem where
  gossip : Option GossipLoop
  /-- Sent by gossip and not received yet. -/
  gossip_rx : List ContactInfo
  latest_slot : UInt64
  main : MainLoop

structure SystemEnv (F : Type) where
  gossip : GossipEnv F
  main : NodeEnv

/-- The next thing that happens: a turn of gossip, a store of the task that asks
an RPC node for the slot, or a turn of the main loop. -/
inductive SystemEvent (F : Type)
  | gossip (e : GossipEvent F)
  | slotRpc (slot : UInt64)
  | receive
  | wake (now done : ℕ) (requests : Pubkey → ℕ → RequestEnv)
  | datagram (packet : Bytes) (peer : SocketAddr) (io : FileIo)

/-- What is put out: by gossip, or by the main loop. -/
abbrev SystemOutput := GossipOutput ⊕ Datagram

namespace NodeSystem

variable {F : Type} (env : SystemEnv F)

/-- The contact infos among what gossip puts out. -/
def infosIn (out : List GossipOutput) : List ContactInfo :=
  out.filterMap fun
    | .contactInfo info => some info
    | _ => none

/-- The slots among what gossip puts out. -/
def slotsIn (out : List GossipOutput) : List UInt64 :=
  out.filterMap fun
    | .latestSlot slot => some slot
    | _ => none

/-- A turn of gossip, while it has not ended. -/
def gossipTurn (s : NodeSystem) (e : GossipEvent F) : NodeSystem × List SystemOutput :=
  match s.gossip with
  | none => (s, [])
  | some gossip =>
    match GossipLoop.step env.gossip gossip e with
    | .error _ => ({ s with gossip := none }, [])
    | .ok (gossip, out) =>
      ({ s with
          gossip := some gossip
          gossip_rx := s.gossip_rx ++ infosIn out
          latest_slot := (slotsIn out).getLast?.getD s.latest_slot }, out.map .inl)

/-- A turn of the main loop. -/
def mainTurn (s : NodeSystem) (e : NodeEvent) : Checked (NodeSystem × List SystemOutput) := do
  let (main, out) ← MainLoop.step env.main s.main e
  pure ({ s with main := main }, out.map .inr)

/-- One step of the node. -/
def step (s : NodeSystem) : SystemEvent F → Checked (NodeSystem × List SystemOutput)
  | .gossip e => pure (gossipTurn env s e)
  | .slotRpc slot => pure ({ s with latest_slot := slot }, [])
  | .receive =>
    match s.gossip_rx with
    | [] => pure (s, [])
    | info :: gossip_rx => mainTurn env { s with gossip_rx := gossip_rx } (.contactInfo info)
  | .wake now done requests => mainTurn env s (.wake s.latest_slot now done requests)
  | .datagram packet peer io => mainTurn env s (.datagram packet peer io)

abbrev run (s : NodeSystem) (events : List (SystemEvent F)) :
    Checked (NodeSystem × List SystemOutput) :=
  react (step env) s events

/-- A node whose gossip is past its start. -/
def start (last_pull last_prune last_repair_poll : ℕ) (file_store : FlatFileStore) (disk : Disk) :
    NodeSystem where
  gossip := some (.start env.gossip last_pull last_prune)
  gossip_rx := []
  latest_slot := 0
  main := .start last_repair_poll file_store disk

/-! ### The runs of the tasks -/

/-- What gossip put out. -/
def ofGossip (log : List SystemOutput) : List GossipOutput := log.filterMap Sum.getLeft?

/-- What the main loop sent. -/
def ofMain (log : List SystemOutput) : List Datagram := log.filterMap Sum.getRight?

/-- What happened to gossip. -/
def gossipEvents (events : List (SystemEvent F)) : List (GossipEvent F) :=
  events.filterMap fun
    | .gossip e => some e
    | _ => none

/-- The packets that came for the main loop. -/
def datagrams (events : List (SystemEvent F)) : List NodeEvent :=
  events.filterMap fun
    | .datagram packet peer io => some (.datagram packet peer io)
    | _ => none

/-- The slots that the other task stored. -/
def rpcSlots (events : List (SystemEvent F)) : List UInt64 :=
  events.filterMap fun
    | .slotRpc slot => some slot
    | _ => none

/-- The packets and the sleeps of the main loop. -/
def turns (events : List (SystemEvent F)) : List (SystemEvent F) :=
  events.filter fun
    | .wake _ _ _ | .datagram _ _ _ => true
    | _ => false

/-- A packet or a sleep of the main loop, without the slot that a sleep loads. -/
def turnOf (F : Type) : NodeEvent → Option (SystemEvent F)
  | .contactInfo _ => none
  | .wake _ now done requests => some (.wake now done requests)
  | .datagram packet peer io => some (.datagram packet peer io)

/-- The contact infos that the main loop received. -/
def received (main : List NodeEvent) : List ContactInfo :=
  main.filterMap fun
    | .contactInfo info => some info
    | _ => none

/-- The slot was there at first, or one of the tasks stored it. -/
def Stored (first : UInt64) (events : List (SystemEvent F)) (log : List SystemOutput)
    (slot : UInt64) : Prop :=
  slot = first ∨ slot ∈ slotsIn (ofGossip log) ∨ slot ∈ rpcSlots events

/-- The runs of the two tasks within a run of the node. -/
structure Projects (env : SystemEnv F) (s : NodeSystem) (events : List (SystemEvent F))
    (s' : NodeSystem) (log : List SystemOutput) (gossip : List (GossipEvent F))
    (main : List NodeEvent) : Prop where
  /-- Gossip takes what happens to it, until one of these events ends it. -/
  gossip_run : ∃ g g', s.gossip = some g ∧
    GossipLoop.run env.gossip g gossip = .ok (g', ofGossip log) ∧
      (s'.gossip = some g' ∧ gossip = gossipEvents events ∨
        s'.gossip = none ∧ ∃ e stop, gossip ++ [e] <+: gossipEvents events ∧
          GossipLoop.step env.gossip g' e = .error stop)
  main_run : MainLoop.run env.main s.main main = .ok (s'.main, ofMain log)
  /-- The main loop gets every packet and every sleep, in their order. -/
  turns_eq : main.filterMap (turnOf F) = turns events
  handed_over : s.gossip_rx ++ infosIn (ofGossip log) = received main ++ s'.gossip_rx
  slots : ∀ slot now done requests, .wake slot now done requests ∈ main →
    Stored s.latest_slot events log slot
  latest_slot : Stored s.latest_slot events log s'.latest_slot

variable {env} {s s' mid next : NodeSystem} {e : SystemEvent F} {events seen : List (SystemEvent F)}
  {log out : List SystemOutput} {gossip : List (GossipEvent F)} {main : List NodeEvent}

theorem gossipEvents_append (events more : List (SystemEvent F)) :
    gossipEvents (events ++ more) = gossipEvents events ++ gossipEvents more :=
  List.filterMap_append

theorem datagrams_append (events more : List (SystemEvent F)) :
    datagrams (events ++ more) = datagrams events ++ datagrams more :=
  List.filterMap_append

theorem turns_append (events more : List (SystemEvent F)) :
    turns (events ++ more) = turns events ++ turns more :=
  List.filter_append ..

theorem rpcSlots_append (events more : List (SystemEvent F)) :
    rpcSlots (events ++ more) = rpcSlots events ++ rpcSlots more :=
  List.filterMap_append

theorem received_append (main more : List NodeEvent) :
    received (main ++ more) = received main ++ received more :=
  List.filterMap_append

theorem infosIn_append (out more : List GossipOutput) :
    infosIn (out ++ more) = infosIn out ++ infosIn more :=
  List.filterMap_append

theorem slotsIn_append (out more : List GossipOutput) :
    slotsIn (out ++ more) = slotsIn out ++ slotsIn more :=
  List.filterMap_append

theorem ofGossip_append (log more : List SystemOutput) :
    ofGossip (log ++ more) = ofGossip log ++ ofGossip more :=
  List.filterMap_append

theorem ofMain_append (log more : List SystemOutput) :
    ofMain (log ++ more) = ofMain log ++ ofMain more :=
  List.filterMap_append

@[simp] theorem ofGossip_inl (out : List GossipOutput) : ofGossip (out.map .inl) = out :=
  List.filterMap_map.trans List.filterMap_some

@[simp] theorem ofGossip_inr (out : List Datagram) : ofGossip (out.map .inr) = [] :=
  List.filterMap_map.trans (List.filterMap_eq_nil_iff.mpr fun _ _ => rfl)

@[simp] theorem ofMain_inl (out : List GossipOutput) : ofMain (out.map .inl) = [] :=
  List.filterMap_map.trans (List.filterMap_eq_nil_iff.mpr fun _ _ => rfl)

@[simp] theorem ofMain_inr (out : List Datagram) : ofMain (out.map .inr) = out :=
  List.filterMap_map.trans List.filterMap_some

theorem Stored.mono {first slot : UInt64} {more : List (SystemEvent F)} {new : List SystemOutput}
    (h : Stored first events log slot) : Stored first (events ++ more) (log ++ new) slot := by
  refine h.imp_right (Or.imp (fun hslot => ?_) fun hslot => ?_)
  · rw [ofGossip_append, slotsIn_append]
    exact List.mem_append_left _ hslot
  · rw [rpcSlots_append]
    exact List.mem_append_left _ hslot

theorem mainTurn_eq_ok {e : NodeEvent} (h : mainTurn env mid e = .ok (next, out)) :
    ∃ main' out', MainLoop.step env.main mid.main e = .ok (main', out') ∧
      next = { mid with main := main' } ∧ out = out'.map .inr := by
  obtain ⟨⟨main', out'⟩, hstep, h⟩ := bind_eq_ok.mp h
  cases h
  exact ⟨main', out', hstep, rfl, rfl⟩

/-- A turn of the main loop, with what is left in the channel. -/
theorem Projects.main_turn (h : Projects env s seen mid log gossip main) {turn : NodeEvent}
    {gossip_rx : List ContactInfo}
    (hturn : mainTurn env { mid with gossip_rx := gossip_rx } turn = .ok (next, out))
    (hrx : mid.gossip_rx = received [turn] ++ gossip_rx)
    (hgossip : gossipEvents [e] = []) (hturns : [turn].filterMap (turnOf F) = turns [e])
    (hslot : ∀ slot now done requests, turn = .wake slot now done requests →
      slot = mid.latest_slot) :
    Projects env s (seen ++ [e]) next (log ++ out) gossip (main ++ [turn]) := by
  obtain ⟨main', out', hstep, rfl, rfl⟩ := mainTurn_eq_ok hturn
  have hevents : gossipEvents (seen ++ [e]) = gossipEvents seen := by
    rw [gossipEvents_append, hgossip, List.append_nil]
  have hlog : ofGossip (log ++ out'.map .inr) = ofGossip log := by
    rw [ofGossip_append, ofGossip_inr, List.append_nil]
  refine ⟨?_, ?_, ?_, ?_, ?_, h.latest_slot.mono⟩
  · rw [hevents, hlog]
    exact h.gossip_run
  · rw [ofMain_append, ofMain_inr]
    exact react_concat_eq_ok.mpr ⟨mid.main, ofMain log, out', h.main_run, hstep, rfl⟩
  · rw [List.filterMap_append, h.turns_eq, hturns, turns_append]
  · rw [hlog, h.handed_over, hrx, received_append]
    exact (List.append_assoc _ _ _).symm
  · intro slot now done requests hmem
    rcases List.mem_append.mp hmem with hold | hnew
    · exact (h.slots slot now done requests hold).mono
    · rw [hslot slot now done requests (List.mem_singleton.mp hnew).symm]
      exact h.latest_slot.mono

/-- The event ends gossip. -/
def EndsGossip (env : SystemEnv F) (s : NodeSystem) (e : SystemEvent F) : Prop :=
  ∃ g event stop, s.gossip = some g ∧ gossipEvents [e] = [event] ∧
    GossipLoop.step env.gossip g event = .error stop

/-- A step that puts nothing out; it may end gossip, or store a slot. -/
theorem Projects.idle (h : Projects env s seen mid log gossip main)
    (hgossip : next.gossip = mid.gossip ∧ (mid.gossip = none ∨ gossipEvents [e] = []) ∨
      next.gossip = none ∧ EndsGossip env mid e)
    (hrx : next.gossip_rx = mid.gossip_rx) (hmain : next.main = mid.main)
    (hturns : turns [e] = [])
    (hslot : next.latest_slot = mid.latest_slot ∨ next.latest_slot ∈ rpcSlots [e]) :
    Projects env s (seen ++ [e]) next log gossip main := by
  have hold : ∀ slot, Stored s.latest_slot seen log slot →
      Stored s.latest_slot (seen ++ [e]) log slot :=
    fun slot hslot => List.append_nil log ▸ hslot.mono
  have hpart : gossipEvents seen <+: gossipEvents (seen ++ [e]) := by
    rw [gossipEvents_append]
    exact List.prefix_append _ _
  refine ⟨?_, ?_, ?_, ?_, ?_, ?_⟩
  · obtain ⟨g, g', hg, hrun, hend⟩ := h.gossip_run
    refine ⟨g, g', hg, hrun, ?_⟩
    rcases hend with ⟨hsome, hevents⟩ | ⟨hnone, last, stop, hlast, hstop⟩
    · -- gossip went on so far
      rcases hgossip with ⟨hsame, hquiet⟩ | ⟨hended, g'', event, stop, hsome', hevent, hstop⟩
      · have hquiet := hquiet.resolve_left (by rw [hsome]; exact Option.some_ne_none g')
        refine .inl ⟨hsame.trans hsome, ?_⟩
        rw [gossipEvents_append, hquiet, List.append_nil]
        exact hevents
      · cases hsome.symm.trans hsome'
        refine .inr ⟨hended, event, stop, ?_, hstop⟩
        rw [gossipEvents_append, hevent, hevents]
    · have hended : next.gossip = none := by
        rcases hgossip with ⟨hsame, -⟩ | ⟨hended, -⟩
        · exact hsame.trans hnone
        · exact hended
      exact .inr ⟨hended, last, stop, hlast.trans hpart, hstop⟩
  · rw [hmain]
    exact h.main_run
  · rw [h.turns_eq, turns_append, hturns, List.append_nil]
  · rw [hrx]
    exact h.handed_over
  · exact fun slot now done requests hmem => hold slot (h.slots slot now done requests hmem)
  · rcases hslot with hsame | hnew
    · rw [hsame]
      exact hold _ h.latest_slot
    · refine .inr (.inr ?_)
      rw [rpcSlots_append]
      exact List.mem_append_right _ hnew

/-- A turn of gossip, that ends it or takes it on. -/
theorem Projects.gossip_turn (h : Projects env s seen mid log gossip main) (e : GossipEvent F) :
    ∃ gossip', Projects env s (seen ++ [.gossip e]) (gossipTurn env mid e).1
      (log ++ (gossipTurn env mid e).2) gossip' main := by
  obtain ⟨g, g', hg, hrun, ⟨hsome, rfl⟩ | ⟨hnone, hstop⟩⟩ := h.gossip_run
  · rw [gossipTurn, hsome]
    rcases hstep : GossipLoop.step env.gossip g' e with stop | ⟨g'', out⟩
    · simp only [hstep, List.append_nil]
      exact ⟨_, h.idle (.inr ⟨rfl, g', e, stop, hsome, rfl, hstep⟩) rfl rfl rfl (.inl rfl)⟩
    · simp only [hstep]
      have hevents : gossipEvents (seen ++ [.gossip e]) = gossipEvents seen ++ [e] :=
        gossipEvents_append _ _
      have hlog : ofGossip (log ++ out.map .inl) = ofGossip log ++ out := by
        rw [ofGossip_append, ofGossip_inl]
      refine ⟨gossipEvents seen ++ [e], ⟨g, g'', hg, ?_, .inl ⟨rfl, hevents.symm⟩⟩, ?_, ?_, ?_,
        fun slot now done requests hmem => (h.slots slot now done requests hmem).mono, ?_⟩
      · rw [hlog]
        exact react_concat_eq_ok.mpr ⟨g', ofGossip log, out, hrun, hstep, rfl⟩
      · rw [ofMain_append, ofMain_inl, List.append_nil]
        exact h.main_run
      · rw [turns_append, h.turns_eq]
        exact (List.append_nil _).symm
      · rw [hlog, infosIn_append, ← List.append_assoc, h.handed_over, List.append_assoc]
      · -- the last slot that the turn stored, or the one before
        cases hlast : (slotsIn out).getLast? with
        | none => exact h.latest_slot.mono
        | some slot =>
          refine .inr (.inl ?_)
          rw [hlog, slotsIn_append]
          exact List.mem_append_right _ (List.mem_of_getLast? hlast)
  · rw [gossipTurn, hnone]
    simp only [List.append_nil]
    exact ⟨gossip, h.idle (.inl ⟨rfl, .inl hnone⟩) rfl rfl rfl (.inl rfl)⟩

/-- One step of the node. -/
theorem Projects.step (h : Projects env s seen mid log gossip main)
    (hstep : step env mid e = .ok (next, out)) :
    ∃ gossip' main', Projects env s (seen ++ [e]) next (log ++ out) gossip' main' := by
  cases e with
  | gossip e =>
    obtain ⟨rfl, rfl⟩ := Prod.mk.inj (Except.ok.inj hstep)
    obtain ⟨gossip', h'⟩ := h.gossip_turn e
    exact ⟨gossip', main, h'⟩
  | slotRpc slot =>
    cases hstep
    rw [List.append_nil]
    exact ⟨gossip, main,
      h.idle (.inl ⟨rfl, .inr rfl⟩) rfl rfl rfl (.inr (List.mem_singleton_self _))⟩
  | receive =>
    rw [NodeSystem.step] at hstep
    split at hstep
    · cases hstep
      rw [List.append_nil]
      exact ⟨gossip, main, h.idle (.inl ⟨rfl, .inr rfl⟩) rfl rfl rfl (.inl rfl)⟩
    · rename_i info gossip_rx hrx
      exact ⟨gossip, _, h.main_turn hstep hrx rfl rfl (fun _ _ _ _ hturn => by cases hturn)⟩
  | wake now done requests =>
    exact ⟨gossip, _, h.main_turn hstep rfl rfl rfl (fun _ _ _ _ hturn => by cases hturn; rfl)⟩
  | datagram packet peer io =>
    exact ⟨gossip, _, h.main_turn hstep rfl rfl rfl (fun _ _ _ _ hturn => by cases hturn)⟩

/-! ### Runs -/

/-- Before the first step. -/
theorem Projects.none {g : GossipLoop} (hg : s.gossip = some g) : Projects env s [] s [] [] [] where
  gossip_run := ⟨g, g, hg, rfl, .inl ⟨hg, rfl⟩⟩
  main_run := rfl
  turns_eq := rfl
  handed_over := List.append_nil _
  slots slot now done requests hmem := by cases hmem
  latest_slot := .inl rfl

/-- Gossip gets no event that did not happen. -/
theorem Projects.gossip_initial (h : Projects env s events s' log gossip main) :
    gossip <+: gossipEvents events := by
  obtain ⟨g, g', -, -, ⟨-, rfl⟩ | ⟨-, e, stop, hpart, -⟩⟩ := h.gossip_run
  · exact List.prefix_rfl
  · exact (List.prefix_append _ _).trans hpart

/-- **Each task does a run of its own**, whatever the interleaving: gossip takes
what happens to it until an event ends it, the main loop gets every packet and
every sleep in their order, and contact infos are handed over in order. -/
theorem run_projects (hgossip : s.gossip.isSome) (h : run env s events = .ok (s', log)) :
    ∃ gossip main, Projects env s events s' log gossip main := by
  obtain ⟨g, hg⟩ := Option.isSome_iff_exists.mp hgossip
  refine react_invariant (fun seen s' log => ∃ gossip main, Projects env s seen s' log gossip main)
    ⟨[], [], .none hg⟩ ?_ h
  rintro seen mid out e next new ⟨gossip, main, hmid⟩ hstep
  exact hmid.step hstep

/-- The shred that an event brings. -/
def deliveries : SystemEvent F → List Delivery
  | .datagram packet peer io => MainLoop.deliveries (.datagram packet peer io)
  | _ => []

theorem mainTurn_map_node (s : NodeSystem) (e : NodeEvent) :
    (mainTurn env s e).map (fun r => r.1.main.node) =
      (MainLoop.deliveries e).foldlM
        (fun node d => processShred env.main.libs env.main.build d.2 node d.1) s.main.node := by
  rw [← MainLoop.step_map_node, mainTurn]
  rcases MainLoop.step env.main s.main e with p | ⟨main, out⟩ <;> rfl

theorem gossipTurn_main (env : SystemEnv F) (s : NodeSystem) (e : GossipEvent F) :
    (gossipTurn env s e).1.main = s.main := by
  rw [gossipTurn]
  split
  · rfl
  · split <;> rfl

/-- One step delivers what its event brings. -/
theorem step_map_node (env : SystemEnv F) (s : NodeSystem) (e : SystemEvent F) :
    (step env s e).map (fun r => r.1.main.node) = (deliveries e).foldlM
      (fun node d => processShred env.main.libs env.main.build d.2 node d.1) s.main.node := by
  cases e with
  | gossip e =>
    show Except.ok (gossipTurn env s e).1.main.node = Except.ok s.main.node
    rw [gossipTurn_main]
  | slotRpc slot => rfl
  | receive =>
    rw [NodeSystem.step]
    split
    · rfl
    · exact mainTurn_map_node _ _
  | wake now done requests => exact mainTurn_map_node s _
  | datagram packet peer io => exact mainTurn_map_node s _

/-- **The blocks depend on the packets alone**: the node is where the pipeline
takes it with the shreds that arrived, whatever gossip and the other task do. -/
theorem run_node (env : SystemEnv F) (s : NodeSystem) (events : List (SystemEvent F)) :
    (run env s events).map (fun r => r.1.main.node) =
      Sg32.run env.main.libs env.main.build s.main.node (events.flatMap deliveries) :=
  react_refines (fun s : NodeSystem => s.main.node) deliveries (step_map_node env)

/-! ### Requests -/

variable {last_pull last_prune last_repair_poll : ℕ} {file_store : FlatFileStore} {disk : Disk}

/-- The values that were gossiped to the node. -/
def gossiped (env : SystemEnv F) (events : List (SystemEvent F)) : List CrdsValue :=
  (gossipEvents events).flatMap (GossipLoop.arrived env.gossip)

theorem mem_infosIn {info : ContactInfo} {out : List GossipOutput} :
    info ∈ infosIn out ↔ .contactInfo info ∈ out := by
  rw [infosIn, List.mem_filterMap]
  constructor
  · rintro ⟨o, ho, hinfo⟩
    cases o <;> cases hinfo
    exact ho
  · intro ho
    exact ⟨_, ho, rfl⟩

theorem mem_slotsIn {slot : UInt64} {out : List GossipOutput} :
    slot ∈ slotsIn out ↔ .latestSlot slot ∈ out := by
  rw [slotsIn, List.mem_filterMap]
  constructor
  · rintro ⟨o, ho, hslot⟩
    cases o <;> cases hslot
    exact ho
  · intro ho
    exact ⟨_, ho, rfl⟩

/-- The last address of a validator is that of a contact info that was received. -/
theorem received_of_lastAddr {pk : Pubkey} {addr : SocketAddr}
    (h : MainLoop.lastAddr pk main = some addr) : ∃ info ∈ received main,
      info.pubkey = pk ∧ info.socketByKey REPAIR_SOCKET = some addr := by
  obtain ⟨turn, hturn, haddr⟩ := List.mem_filterMap.mp (List.mem_of_getLast? h)
  cases turn with
  | contactInfo info =>
    rw [MainLoop.repairAddr] at haddr
    split_ifs at haddr with hpk
    exact ⟨info, List.mem_filterMap.mpr ⟨_, hturn, rfl⟩, hpk, haddr⟩
  | wake slot now done requests => cases haddr
  | datagram packet peer io => cases haddr

/-- **Whom the node asks, and for what**: each request goes to the repair socket
of a contact info that was gossiped to it, under the key of that contact info,
for a slot that a gossiped value named or the other task stored. -/
theorem run_requests
    (h : run env (start env last_pull last_prune last_repair_poll file_store disk) events =
      .ok (s', log)) : ∀ d ∈ MainLoop.requests (ofMain log), ∃ request info,
      WindowIndex.codec.decodeAll d.bytes = some request ∧
      (∃ value ∈ gossiped env events, value.data = .contactInfo info) ∧
      request.recipient = info.pubkey ∧ info.socketByKey REPAIR_SOCKET = some d.dest ∧
      (request.slot ∈ rpcSlots events ∨
        ∃ value ∈ gossiped env events, CrdsTable.slotOf value = some request.slot) := by
  intro d hd
  obtain ⟨gossip, main, hprojects⟩ := react_invariant (fun seen s' log => ∃ gossip main,
    Projects env (start env last_pull last_prune last_repair_poll file_store disk) seen s' log
      gossip main) ⟨[], [], .none rfl⟩
    (fun _ _ _ _ _ _ ⟨_, _, hmid⟩ hstep => hmid.step hstep) h
  obtain ⟨g, g', hg, hgossip, -⟩ := hprojects.gossip_run
  cases hg
  obtain ⟨before, slot, now, done, envs, after, pk, addr, idx, timestamp, rfl, hdue, haddr, -, -,
    rfl⟩ := MainLoop.exists_of_mem_requests hprojects.main_run rfl hd
  have harrived : ∀ value ∈ gossip.flatMap (GossipLoop.arrived env.gossip),
      value ∈ gossiped env events :=
    fun value hvalue => GossipLoop.arrived_mono hprojects.gossip_initial hvalue
  obtain ⟨info, hinfo, rfl, hsocket⟩ := received_of_lastAddr haddr
  refine ⟨_, info, decodeAll_repairRequest .., ?_, rfl, hsocket, ?_⟩
  · -- it went through the channel
    have hsent : info ∈ infosIn (ofGossip log) := by
      have hover : [] ++ infosIn (ofGossip log) = _ := hprojects.handed_over
      rw [← List.nil_append (infosIn _), hover, received_append, List.append_assoc]
      exact List.mem_append_left _ hinfo
    obtain ⟨value, hvalue, hdata⟩ :=
      GossipLoop.arrived_of_contactInfo hgossip (mem_infosIn.mp hsent)
    exact ⟨value, harrived value hvalue, hdata⟩
  · rcases hprojects.slots slot now done envs (by simp) with hzero | hgossiped | hrpc
    · have hpos := hdue.1
      rw [hzero] at hpos
      exact absurd hpos (UInt64.lt_irrefl 0)
    · obtain ⟨value, hvalue, hslot⟩ :=
        GossipLoop.arrived_of_latestSlot hgossip (mem_slotsIn.mp hgossiped)
      exact .inr ⟨value, harrived value hvalue, hslot⟩
    · exact .inl hrpc

end NodeSystem

/-! ### A sample run -/

def sampleSystemEnv : SystemEnv Unit := ⟨sampleGossipEnv, sampleNodeEnv⟩

/-- The sample traffic of gossip, what follows from it, and a packet. -/
def sampleSystem : List (SystemEvent Unit) :=
  sampleGossip.map .gossip ++
    [.receive, .slotRpc 50,
      .wake 31000 31010 fun _ _ => { nonce := 9, timestamp := some 1700000000000 },
      .datagram (pingPacket.encode samplePing) samplePinger allWritten]

namespace NodeSystem

theorem exists_run_sampleSystem : ∃ s' log,
    run sampleSystemEnv (start sampleSystemEnv 0 0 0 .empty ∅) sampleSystem = .ok (s', log) ∧
      MainLoop.requests (ofMain log) ≠ [] := by
  have hrun : (run sampleSystemEnv (start sampleSystemEnv 0 0 0 .empty ∅)
      sampleSystem).toOption.any (fun r => !(MainLoop.requests (ofMain r.2)).isEmpty) = true := by
    decide +kernel
  rcases h : run sampleSystemEnv (start sampleSystemEnv 0 0 0 .empty ∅) sampleSystem
    with p | ⟨s', log⟩
  · rw [h] at hrun
    cases hrun
  · rw [h] at hrun
    exact ⟨s', log, rfl, by simpa [Except.toOption] using hrun⟩

theorem run_projects_sample : ∃ s' log,
    run sampleSystemEnv (start sampleSystemEnv 0 0 0 .empty ∅) sampleSystem = .ok (s', log) ∧
      ∃ gossip main, Projects sampleSystemEnv (start sampleSystemEnv 0 0 0 .empty ∅) sampleSystem
        s' log gossip main := by
  obtain ⟨s', log, hrun, -⟩ := exists_run_sampleSystem
  exact ⟨s', log, hrun, run_projects rfl hrun⟩

theorem run_requests_sample : ∃ s' log,
    run sampleSystemEnv (start sampleSystemEnv 0 0 0 .empty ∅) sampleSystem = .ok (s', log) ∧
      ∃ d ∈ MainLoop.requests (ofMain log), ∃ request info,
        WindowIndex.codec.decodeAll d.bytes = some request ∧ request.recipient = info.pubkey ∧
        ∃ value ∈ gossiped sampleSystemEnv sampleSystem, value.data = .contactInfo info := by
  obtain ⟨s', log, hrun, hne⟩ := exists_run_sampleSystem
  obtain ⟨d, hd⟩ := List.exists_mem_of_ne_nil _ hne
  obtain ⟨request, info, hread, hinfo, hrecipient, -⟩ := run_requests hrun d hd
  exact ⟨s', log, hrun, d, hd, request, info, hread, hrecipient, hinfo⟩

end NodeSystem

end Sg32
