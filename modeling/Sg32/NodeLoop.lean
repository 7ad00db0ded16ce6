/-
The main loop (`main` in `main.rs`).

The loop takes what comes first: a contact info from gossip, which names the
repair socket of a validator; a packet, which is a ping to answer or a shred
for the pipeline; or the end of a sleep of one second, after which it asks
every validator for the 64 shreds of a set, at most every five seconds.

* `step_eq_ok` — what one turn does to the validators and the poll clock, and
  what it sends;
* `run_map_node` — the node is where the pipeline takes it with the shreds that
  arrived, and the loop fails where the pipeline does;
* `run_known` — the validators known are the gossiped ones, each at the last
  address it gossiped.
-/
import Mathlib.Data.List.AList
import Sg32.Foundation.Reactor
import Sg32.Pipeline
import Sg32.RepairResponses

namespace Sg32

open Rust Bytes Reactor

/-- The state that the loop works on. -/
structure MainLoop where
  validators : AList fun _ : Pubkey => SocketAddr
  /-- In milliseconds, on the clock of `Instant`. -/
  last_repair_poll : ℕ
  node : Node

/-- What a run is given: the libraries, the build and our key. -/
structure NodeEnv where
  libs : Libs
  build : Build
  our_key : SigningKey

/-- What the loop waits for.  The sleep ends with the slot that is loaded, the
clock before and after the requests, and what each request takes from its
surroundings. -/
inductive NodeEvent
  | contactInfo (ci : ContactInfo)
  | wake (slot : UInt64) (now done : ℕ) (requests : Pubkey → ℕ → RequestEnv)
  | datagram (packet : Bytes) (peer : SocketAddr) (io : FileIo)

/-- `REPAIR_POLL_SECS`, in milliseconds. -/
def REPAIR_POLL_MILLIS : ℕ := 5000

/-- The key of the repair socket. -/
def REPAIR_SOCKET : UInt8 := 4

namespace MainLoop

variable (env : NodeEnv)

/-- The requests of one validator. -/
def requestsTo (slot : UInt64) (requests : Pubkey → ℕ → RequestEnv)
    (validator : (_ : Pubkey) × SocketAddr) : List Datagram :=
  (List.range (NUM_DATA_SHREDS + NUM_CODE_SHREDS)).filterMap fun idx =>
    (sendRepairRequest validator.2 env.our_key validator.1 slot (.ofNat idx)
      (requests validator.1 idx)).map Prod.snd

/-- The requests of one poll; the order of the validators is that of a hash map. -/
def pollRequests (validators : AList fun _ : Pubkey => SocketAddr) (slot : UInt64)
    (requests : Pubkey → ℕ → RequestEnv) : List Datagram :=
  validators.entries.flatMap (requestsTo env slot requests)

/-- A shred that was parsed goes to the pipeline. -/
def deliver (s : MainLoop) (io : FileIo) (shred : Option Shred) :
    Checked (MainLoop × List Datagram) :=
  match shred with
  | some shred => do
    let node ← processShred env.libs env.build io s.node shred
    pure ({ s with node := node }, [])
  | none => pure (s, [])

/-- One turn of the loop, with the packets handed to the socket. -/
def step (s : MainLoop) : NodeEvent → Checked (MainLoop × List Datagram)
  | .contactInfo ci =>
    match ci.socketByKey REPAIR_SOCKET with
    | some addr => pure ({ s with validators := s.validators.insert ci.pubkey addr }, [])
    | none => pure (s, [])
  | .wake slot now done requests =>
    if slot > 0 ∧ now - s.last_repair_poll ≥ REPAIR_POLL_MILLIS then
      pure ({ s with last_repair_poll := done }, pollRequests env s.validators slot requests)
    else pure (s, [])
  | .datagram packet peer io =>
    let packet := packet.take PACKET_DATA_SIZE
    match parseResponse packet with
    | some (.ping token _) =>
      pure (s, [{ dest := peer, bytes := buildPong env.libs.sha256 token env.our_key }])
    | some (.shred bytes _) => deliver env s io (Shred.parseFromBytes bytes)
    | none => deliver env s io (Shred.parseFromBytes packet)

/-- The loop over some events, with all that it sends. -/
abbrev run (s : MainLoop) (events : List NodeEvent) : Checked (MainLoop × List Datagram) :=
  react (step env) s events

/-- The loop before its first turn; `file_store` is what was found on disk. -/
def start (now : ℕ) (file_store : FlatFileStore) (disk : Disk) : MainLoop where
  validators := ∅
  last_repair_poll := now
  node := .start file_store disk {}

/-! ### One turn -/

/-- The shred that an event brings, with the answers of the file system. -/
def deliveries : NodeEvent → List Delivery
  | .datagram packet _ io => (shredOf (packet.take PACKET_DATA_SIZE)).toList.map fun s => (s, io)
  | _ => []

/-- The answer to an event that is a ping. -/
def pongFor : NodeEvent → Option Datagram
  | .datagram packet peer _ =>
    match parseResponse (packet.take PACKET_DATA_SIZE) with
    | some (.ping token _) =>
      some { dest := peer, bytes := buildPong env.libs.sha256 token env.our_key }
    | _ => none
  | _ => none

/-- Where a contact info says that the validator answers requests. -/
def repairAddr (pk : Pubkey) : NodeEvent → Option SocketAddr
  | .contactInfo ci => if ci.pubkey = pk then ci.socketByKey REPAIR_SOCKET else none
  | _ => none

/-- A poll is due at `now`, for this slot and this last poll. -/
abbrev PollDue (last : ℕ) (slot : UInt64) (now : ℕ) : Prop :=
  slot > 0 ∧ now - last ≥ REPAIR_POLL_MILLIS

/-- The requests that an event makes the loop send. -/
def requestsFor (s : MainLoop) : NodeEvent → List Datagram
  | .wake slot now _ requests =>
    if PollDue s.last_repair_poll slot now then pollRequests env s.validators slot requests else []
  | _ => []

/-- When the last poll was, after an event. -/
def pollTime (last : ℕ) : NodeEvent → ℕ
  | .wake slot now done _ => if PollDue last slot now then done else last
  | _ => last

variable {env} {s s' : MainLoop} {e : NodeEvent} {out : List Datagram}

theorem deliver_map_node (s : MainLoop) (io : FileIo) (shred : Option Shred) :
    (deliver env s io shred).map (fun r => r.1.node) =
      (shred.toList.map fun shred => (shred, io)).foldlM
        (fun node d => processShred env.libs env.build d.2 node d.1) s.node := by
  cases shred with
  | none => rfl
  | some shred =>
    show Except.map _ (Except.bind (processShred env.libs env.build io s.node shred) _) =
      Except.bind (processShred env.libs env.build io s.node shred) _
    rcases processShred env.libs env.build io s.node shred with p | node <;> rfl

/-- A delivery sends nothing and changes nothing but the node. -/
theorem deliver_eq_ok {io : FileIo} {shred : Option Shred}
    (h : deliver env s io shred = .ok (s', out)) :
    out = [] ∧ s'.validators = s.validators ∧ s'.last_repair_poll = s.last_repair_poll := by
  cases shred with
  | none =>
    cases h
    exact ⟨rfl, rfl, rfl⟩
  | some shred =>
    obtain ⟨node, -, h⟩ := bind_eq_ok.mp h
    cases h
    exact ⟨rfl, rfl, rfl⟩

/-- A packet is answered, or its shred goes to the pipeline. -/
theorem step_datagram (s : MainLoop) (packet : Bytes) (peer : SocketAddr) (io : FileIo) :
    step env s (.datagram packet peer io) =
      (deliver env s io (shredOf (packet.take PACKET_DATA_SIZE))).map fun r =>
        (r.1, (pongFor env (.datagram packet peer io)).toList ++ r.2) := by
  rw [step, shredOf, pongFor]
  cases parseResponse (packet.take PACKET_DATA_SIZE) with
  | none => exact (congrFun Except.map_id _).symm
  | some response =>
    cases response with
    | ping token pubkey => rfl
    | shred bytes nonce => exact (congrFun Except.map_id _).symm

/-- One turn does to the node what the pipeline does with the shred it brings. -/
theorem step_map_node (s : MainLoop) (e : NodeEvent) :
    (step env s e).map (fun r => r.1.node) =
      (deliveries e).foldlM (fun node d => processShred env.libs env.build d.2 node d.1)
        s.node := by
  cases e with
  | contactInfo ci =>
    rw [step]
    split <;> rfl
  | wake slot now done requests =>
    rw [step]
    split <;> rfl
  | datagram packet peer io =>
    rw [step_datagram, deliveries, ← deliver_map_node]
    rcases deliver env s io _ with p | r <;> rfl

/-- **What one turn sends, and what it does to the rest of the state**: the
answer to a ping, or the requests of a poll. -/
theorem step_eq_ok (h : step env s e = .ok (s', out)) :
    out = (pongFor env e).toList ++ requestsFor env s e ∧
      (∀ pk, s'.validators.lookup pk = (repairAddr pk e).or (s.validators.lookup pk)) ∧
      s'.last_repair_poll = pollTime s.last_repair_poll e := by
  cases e with
  | contactInfo ci =>
    rw [step] at h
    split at h
    · rename_i addr haddr
      cases h
      refine ⟨rfl, fun pk => ?_, rfl⟩
      rw [repairAddr]
      split_ifs with hpk
      · rw [← hpk, haddr]
        exact AList.lookup_insert _
      · exact AList.lookup_insert_ne (Ne.symm hpk)
    · rename_i hnone
      cases h
      refine ⟨rfl, fun pk => ?_, rfl⟩
      rw [repairAddr, hnone, ite_self]
      rfl
  | wake slot now done requests =>
    rw [step] at h
    split_ifs at h with hdue
    · cases h
      exact ⟨(if_pos hdue).symm, fun _ => rfl, (if_pos hdue).symm⟩
    · cases h
      exact ⟨(if_neg hdue).symm, fun _ => rfl, (if_neg hdue).symm⟩
  | datagram packet peer io =>
    rw [step_datagram] at h
    rcases hdeliver : deliver env s io (shredOf (packet.take PACKET_DATA_SIZE))
      with p | ⟨next, sent⟩
    · rw [hdeliver] at h
      cases h
    · rw [hdeliver] at h
      cases h
      obtain ⟨rfl, hvalidators, hpoll⟩ := deliver_eq_ok hdeliver
      exact ⟨rfl, fun pk => by rw [hvalidators]; rfl, hpoll⟩

/-! ### Runs -/

variable {events : List NodeEvent} {log : List Datagram}

/-- **The node is where the pipeline takes it** with the shreds that arrived,
whatever else the loop does, and the loop panics exactly where the pipeline does. -/
theorem run_map_node (env : NodeEnv) (s : MainLoop) (events : List NodeEvent) :
    (run env s events).map (fun r => r.1.node) =
      Sg32.run env.libs env.build s.node (events.flatMap deliveries) :=
  react_refines MainLoop.node deliveries fun s e => step_map_node s e

/-- The address at which a validator is asked: the last that it gossiped. -/
def lastAddr (pk : Pubkey) (events : List NodeEvent) : Option SocketAddr :=
  (events.filterMap (repairAddr pk)).getLast?

theorem lastAddr_concat (pk : Pubkey) (events : List NodeEvent) (e : NodeEvent) :
    lastAddr pk (events ++ [e]) = (repairAddr pk e).or (lastAddr pk events) := by
  rw [lastAddr, List.filterMap_append, List.getLast?_append]
  cases h : repairAddr pk e <;> simp [h, lastAddr]

/-- When the last poll was, after some events. -/
def lastPoll (start : ℕ) (events : List NodeEvent) : ℕ := events.foldl pollTime start

/-- **What the loop knows after a run**. -/
theorem run_known (h : run env s events = .ok (s', log)) :
    (∀ pk, s'.validators.lookup pk = (lastAddr pk events).or (s.validators.lookup pk)) ∧
      s'.last_repair_poll = lastPoll s.last_repair_poll events := by
  refine react_invariant (fun seen s' _ =>
    (∀ pk, s'.validators.lookup pk = (lastAddr pk seen).or (s.validators.lookup pk)) ∧
      s'.last_repair_poll = lastPoll s.last_repair_poll seen) ⟨fun pk => rfl, rfl⟩ ?_ h
  rintro seen mid out e next new ⟨hvalidators, hpoll⟩ hstep
  obtain ⟨-, hnext, htime⟩ := step_eq_ok hstep
  refine ⟨fun pk => ?_, ?_⟩
  · rw [hnext pk, hvalidators pk, lastAddr_concat, Option.or_assoc]
  · rw [htime, hpoll, lastPoll, lastPoll, List.foldl_append]
    rfl

end MainLoop

/-! ### A sample run -/

def samplePeer : SocketAddr := { ip := .v4 (Vector.replicate 4 10), port := 8008 }

/-- Where pings come from. -/
def samplePinger : SocketAddr := { samplePeer with port := 9000 }

def sampleNodeEnv : NodeEnv where
  libs := sampleLibs
  build := .debug
  our_key := { verifyingKey := Vector.replicate 32 3, sign := fun _ => Vector.replicate 64 5 }

def samplePing : Ping := ⟨Vector.replicate 32 1, Vector.replicate 32 2, Vector.replicate 64 0⟩

def sampleContactInfo : ContactInfo where
  pubkey := Vector.replicate 32 1
  wallclock := 1
  addrs := [samplePeer.ip]
  sockets := [⟨0, 0, 8001⟩, ⟨4, 0, 7⟩]
  rest := []

/-- A contact info, a ping and a poll. -/
def sampleTraffic : List NodeEvent :=
  [.contactInfo sampleContactInfo,
    .datagram (pingPacket.encode samplePing) samplePinger allWritten,
    .wake 7 6000 6010 fun _ _ => { nonce := 9, timestamp := some 1700000000000 }]

/-- The loop once it knows the validator. -/
def sampleKnown : MainLoop :=
  { MainLoop.start 0 .empty ∅ with
    validators := AList.insert sampleContactInfo.pubkey samplePeer ∅ }

def samplePong : Datagram :=
  ⟨samplePinger, buildPong sampleSha256 samplePing.token sampleNodeEnv.our_key⟩

/-- The requests of the sample poll. -/
def sampleRequests : List Datagram :=
  MainLoop.pollRequests sampleNodeEnv sampleKnown.validators 7
    fun _ _ => { nonce := 9, timestamp := some 1700000000000 }

namespace MainLoop

theorem run_sampleTraffic : run sampleNodeEnv (.start 0 .empty ∅) sampleTraffic =
    .ok ({ sampleKnown with last_repair_poll := 6010 }, samplePong :: sampleRequests) := by
  have hknown : step sampleNodeEnv (.start 0 .empty ∅) (.contactInfo sampleContactInfo) =
      .ok (sampleKnown, []) := rfl
  have hpong : step sampleNodeEnv sampleKnown
      (.datagram (pingPacket.encode samplePing) samplePinger allWritten) =
        .ok (sampleKnown, [samplePong]) := by
    rw [step, List.take_of_length_le (by rw [length_pingPacket]; decide), parseResponse_pingPacket]
    rfl
  have hpoll : step sampleNodeEnv sampleKnown
      (.wake 7 6000 6010 fun _ _ => { nonce := 9, timestamp := some 1700000000000 }) =
        .ok ({ sampleKnown with last_repair_poll := 6010 }, sampleRequests) := by
    rw [step, if_pos (by decide)]
    rfl
  exact react_cons_eq_ok.mpr ⟨_, _, _, hknown, react_cons_eq_ok.mpr ⟨_, _, _, hpong,
    react_cons_eq_ok.mpr ⟨_, _, _, hpoll, rfl, rfl⟩, rfl⟩, by rw [List.append_nil]; rfl⟩

end MainLoop

end Sg32
