/-
How gossip starts (`run_gossip_loop` in `lib.rs`, up to its main loop).

A ping is sent to the entrypoint, and sent again when no packet comes in time;
a pong ends the handshake, and after ten attempts it ends anyway.  Then a first
request is sent, and for fifteen more turns pings are answered and everything
else is dropped.

* `handshake_eq_ok_iff`, `initialWait_eq_ok_iff` — when the two waits are passed;
* `startup_eq_ok_iff` — exactly when the main loop is reached, and what was sent
  by then.
-/
import Sg32.Gossip.Loop

namespace Sg32

open Rust Bytes Reactor

/-- What comes of a wait with a time limit: a packet, an error of the socket, or
nothing in time.  `sent` says whether the socket takes what is sent then. -/
inductive Waited
  | datagram (bytes : Bytes) (sender : SocketAddr) (sent : Bool)
  | recvError
  | timeout (token : Vector UInt8 32) (sent : Bool)

/-- What the start takes from its surroundings. -/
structure Startup (F : Type) where
  token : Vector UInt8 32
  ping_sent : Bool
  attempts : Vector Waited 10
  wallclock : UInt64
  rest : Bytes
  probe : F
  pull_sent : Bool
  waits : Vector Waited 15

/-- The request for one part, the first one. -/
def createPullRequestMessage {F : Type} (env : PullEnv F) (probe : F) (contact_info : ContactInfo) :
    Pull (PullRequest env) :=
  if contact_info.sockets.isEmpty then throw .noSocketEntry
  else
    let signed_info := env.newContactInfo contact_info
    match env.serializedSize signed_info with
    | none => throw .serializeFailed
    | some caller_size => do
      let filter ← (CrdsFilter.newSeeded probe (maskBitsFor env caller_size) 0 : Checked _)
      encodePullRequest env filter signed_info

namespace Startup

variable {F : Type} (env : GossipEnv F)

/-- A ping for the entrypoint. -/
def pingTo (token : Vector UInt8 32) : Datagram :=
  ⟨env.entrypoint, pingMessage.encode (Ping.new env.node token)⟩

/-- `transport.send(..).await?` -/
def send (d : Datagram) (sent : Bool) : Except GossipStop Datagram :=
  if sent then .ok d else .error .error

/-- The attempts to get a pong: whether one came, and the pings sent on the way. -/
def handshake : List Waited → Except GossipStop (Bool × List Datagram)
  | [] => .ok (false, [])
  | .datagram bytes _ _ :: attempts => do
    match ← orPanic (decodeFrom env.libs env.build bytes) with
    | none => .error .error
    | some (.pongMessage _) => .ok (true, [])
    | some _ => handshake attempts
  | .recvError :: attempts => handshake attempts
  | .timeout token sent :: attempts => do
    let ping ← send (pingTo env token) sent
    let (pong_ok, pings) ← handshake attempts
    .ok (pong_ok, ping :: pings)

/-- One turn that waits for the response to the first request: a ping is answered. -/
def waitTurn : Waited → Except GossipStop (List Datagram)
  | .datagram bytes sender sent => do
    let _ ← orPanic (slice bytes 0 4)
    match ← orPanic (decodeFrom env.libs env.build bytes) with
    | some (.pingMessage ping) =>
      (send ⟨sender, pongMessage.encode (Pong.new env.sha256 ping env.node)⟩ sent).map fun d => [d]
    | _ => .ok []
  | .recvError => .ok []
  | .timeout _ _ => .ok []

def initialWait : List Waited → Except GossipStop (List Datagram)
  | [] => .ok []
  | w :: waits => do
    let pongs ← waitTurn env w
    let rest ← initialWait waits
    .ok (pongs ++ rest)

/-- Everything before the main loop, with all that is sent. -/
def startup (x : Startup F) : Except GossipStop (List Datagram) := do
  let ping ← send (pingTo env x.token) x.ping_sent
  let (_, pings) ← handshake env x.attempts.toList
  let contact_info := .new env.node.verifyingKey x.wallclock env.gossip_addr x.rest
  match ← orPanic (createPullRequestMessage env.pull x.probe contact_info).run with
  | .error _ => .error .error
  | .ok initial_pull => do
    let _ ← orPanic (decodeFrom env.libs env.build initial_pull.bytes)
    let pull ← send ⟨env.entrypoint, initial_pull.bytes⟩ x.pull_sent
    let pongs ← initialWait env x.waits.toList
    .ok (ping :: pings ++ pull :: pongs)

/-! ### The handshake -/

/-- The wait brings a pong. -/
def isPong : Waited → Bool
  | .datagram bytes _ _ =>
    match decodeFrom env.libs env.build bytes with
    | .ok (some (.pongMessage _)) => true
    | _ => false
  | _ => false

/-- The handshake goes on after this wait: a packet decodes, and a ping is sent. -/
def Passes : Waited → Prop
  | .datagram bytes _ _ => ∃ msg, decodeFrom env.libs env.build bytes = .ok (some msg)
  | .recvError => True
  | .timeout _ sent => sent = true

/-- The ping that is sent after this wait. -/
def pingFor : Waited → Option Datagram
  | .timeout token _ => some (pingTo env token)
  | _ => none

/-- The waits before the first pong. -/
def beforePong (attempts : List Waited) : List Waited := attempts.takeWhile fun w => !isPong env w

variable {env}

theorem send_eq_ok_iff {d d' : Datagram} {sent : Bool} :
    send d sent = .ok d' ↔ sent = true ∧ d' = d := by
  rw [send]
  split_ifs with hsent <;> simp [hsent, eq_comm]

theorem beforePong_cons_pong {w : Waited} (h : isPong env w = true) (attempts : List Waited) :
    beforePong env (w :: attempts) = [] :=
  List.takeWhile_cons_of_neg (by simp [h])

theorem beforePong_cons {w : Waited} (h : isPong env w = false) (attempts : List Waited) :
    beforePong env (w :: attempts) = w :: beforePong env attempts :=
  List.takeWhile_cons_of_pos (by simp [h])

/-- A wait that changes nothing. -/
theorem passed_cons_iff {w : Waited} (h : isPong env w = false) (hpasses : Passes env w)
    (hping : pingFor env w = none) {attempts : List Waited} {pong_ok : Bool}
    {pings : List Datagram} :
    ((∀ w' ∈ beforePong env (w :: attempts), Passes env w') ∧
        pong_ok = (w :: attempts).any (isPong env) ∧
        pings = (beforePong env (w :: attempts)).filterMap (pingFor env)) ↔
      (∀ w' ∈ beforePong env attempts, Passes env w') ∧ pong_ok = attempts.any (isPong env) ∧
        pings = (beforePong env attempts).filterMap (pingFor env) := by
  rw [beforePong_cons h, List.forall_mem_cons, List.any_cons, h, Bool.false_or,
    List.filterMap_cons_none hping, and_iff_right hpasses]

/-- A wait that ends the start. -/
theorem stopped_cons_iff {w : Waited} (h : isPong env w = false) (hstops : ¬ Passes env w)
    {stop : GossipStop} {attempts : List Waited} {pong_ok : Bool} {pings : List Datagram} :
    .error stop = (.ok (pong_ok, pings) : Except GossipStop (Bool × List Datagram)) ↔
      (∀ w' ∈ beforePong env (w :: attempts), Passes env w') ∧
        pong_ok = (w :: attempts).any (isPong env) ∧
        pings = (beforePong env (w :: attempts)).filterMap (pingFor env) := by
  rw [beforePong_cons h]
  refine iff_of_false (fun hok => ?_) fun hpassed => hstops (hpassed.1 w List.mem_cons_self)
  cases hok

/-- **When the handshake is passed**: no packet before the pong fails to decode,
and no ping fails to be sent. -/
theorem handshake_eq_ok_iff {attempts : List Waited} {pong_ok : Bool} {pings : List Datagram} :
    handshake env attempts = .ok (pong_ok, pings) ↔
      (∀ w ∈ beforePong env attempts, Passes env w) ∧ pong_ok = attempts.any (isPong env) ∧
        pings = (beforePong env attempts).filterMap (pingFor env) := by
  induction attempts generalizing pong_ok pings with
  | nil => simp [handshake, beforePong, eq_comm]
  | cons w attempts ih =>
    cases w with
    | recvError => rw [handshake, ih, passed_cons_iff (w := .recvError) rfl trivial rfl]
    | timeout token sent =>
      have hpong : isPong env (.timeout token sent) = false := rfl
      have hping : pingFor env (.timeout token sent) = some (pingTo env token) := rfl
      rw [beforePong_cons hpong, List.forall_mem_cons, List.any_cons, hpong, Bool.false_or,
        List.filterMap_cons_some hping, handshake, except_bind_eq_ok]
      constructor
      · rintro ⟨ping, hsend, h⟩
        obtain ⟨⟨pong_ok', pings'⟩, hrest, h⟩ := except_bind_eq_ok.mp h
        cases h
        obtain ⟨hsent, rfl⟩ := send_eq_ok_iff.mp hsend
        obtain ⟨hpasses, rfl, rfl⟩ := ih.mp hrest
        exact ⟨⟨hsent, hpasses⟩, rfl, rfl⟩
      · rintro ⟨⟨hsent, hpasses⟩, rfl, rfl⟩
        refine ⟨_, send_eq_ok_iff.mpr ⟨hsent, rfl⟩, ?_⟩
        rw [ih.mpr ⟨hpasses, rfl, rfl⟩]
        rfl
    | datagram bytes sender sent =>
      rcases hdecode : decodeFrom env.libs env.build bytes with p | msg
      · have hstop : handshake env (.datagram bytes sender sent :: attempts) =
            .error (.panic p) := by
          rw [handshake, hdecode]
          rfl
        rw [hstop]
        refine stopped_cons_iff (by rw [isPong, hdecode]) ?_
        rintro ⟨msg, hmsg⟩
        cases hdecode.symm.trans hmsg
      · cases msg with
        | none =>
          have hstop : handshake env (.datagram bytes sender sent :: attempts) =
              .error .error := by
            rw [handshake, hdecode]
            rfl
          rw [hstop]
          refine stopped_cons_iff (by rw [isPong, hdecode]) ?_
          rintro ⟨msg, hmsg⟩
          cases hdecode.symm.trans hmsg
        | some msg =>
          cases msg with
          | pongMessage pong =>
            have hpong : isPong env (.datagram bytes sender sent) = true := by rw [isPong, hdecode]
            have hend : handshake env (.datagram bytes sender sent :: attempts) =
                .ok (true, []) := by
              rw [handshake, hdecode]
              rfl
            rw [hend, beforePong_cons_pong hpong, List.any_cons, hpong]
            simp [eq_comm]
          | _ =>
            have hnext : handshake env (.datagram bytes sender sent :: attempts) =
                handshake env attempts := by
              rw [handshake, hdecode]
              rfl
            rw [hnext, ih, passed_cons_iff (w := .datagram bytes sender sent)
              (by rw [isPong, hdecode]) ⟨_, hdecode⟩ rfl]

/-! ### The first response -/

/-- The wait is passed: a packet has a tag and does not make decoding panic, and
a ping is answered. -/
def WaitPasses (env : GossipEnv F) : Waited → Prop
  | .datagram bytes _ sent => 4 ≤ bytes.length ∧
      ∃ msg, decodeFrom env.libs env.build bytes = .ok msg ∧
        ∀ ping, msg = some (.pingMessage ping) → sent = true
  | .recvError => True
  | .timeout _ _ => True

/-- The answer to a wait that brings a ping. -/
def pongFor (env : GossipEnv F) : Waited → Option Datagram
  | .datagram bytes sender sent => GossipLoop.pongFor env (.datagram bytes sender sent)
  | _ => none

theorem waitTurn_eq_ok_iff {w : Waited} {pongs : List Datagram} :
    waitTurn env w = .ok pongs ↔ WaitPasses env w ∧ pongs = (pongFor env w).toList := by
  cases w with
  | recvError => simp [waitTurn, WaitPasses, pongFor, eq_comm]
  | timeout token sent => simp [waitTurn, WaitPasses, pongFor, eq_comm]
  | datagram bytes sender sent =>
    rw [waitTurn, WaitPasses, pongFor, GossipLoop.pongFor, GossipLoop.messageOf]
    by_cases hlen : 4 ≤ bytes.length
    · rw [slice_of_le (Nat.zero_le 4) hlen, and_iff_right hlen]
      rcases decodeFrom env.libs env.build bytes with p | msg
      · refine iff_of_false (fun h => ?_) ?_
        · cases h
        · rintro ⟨⟨msg, hmsg, -⟩, -⟩
          cases hmsg
      · have hmsg : ∀ {P : Option (Message F) → Prop},
            (∃ msg', (.ok msg : Checked (Option (Message F))) = .ok msg' ∧ P msg') ↔ P msg := by
          simp
        rw [hmsg]
        -- a ping that is answered, or anything else, is no reason to stop
        have hpassed : ∀ {P : Prop} {sent : List Datagram}, P →
            ((.ok sent : Except GossipStop (List Datagram)) = .ok pongs ↔ P ∧ pongs = sent) := by
          intro P sent hP
          rw [and_iff_right hP, Except.ok.injEq]
          exact eq_comm
        cases msg with
        | none => exact hpassed fun ping hping => by cases hping
        | some msg =>
          cases msg with
          | pingMessage ping =>
            cases sent with
            | true => exact hpassed fun _ _ => rfl
            | false =>
              refine iff_of_false (fun h => ?_) fun h => Bool.false_ne_true (h.1 ping rfl)
              cases h
          | _ => exact hpassed fun ping hping => by cases hping
    · rw [slice, if_neg (by omega)]
      refine iff_of_false (fun h => ?_) fun h => hlen h.1.1
      cases h

/-- **When the wait for the first response is passed**. -/
theorem initialWait_eq_ok_iff {waits : List Waited} {pongs : List Datagram} :
    initialWait env waits = .ok pongs ↔
      (∀ w ∈ waits, WaitPasses env w) ∧ pongs = waits.flatMap fun w => (pongFor env w).toList := by
  induction waits generalizing pongs with
  | nil => simp [initialWait, eq_comm]
  | cons w waits ih =>
    rw [initialWait, List.forall_mem_cons, List.flatMap_cons, except_bind_eq_ok]
    constructor
    · rintro ⟨answers, hturn, h⟩
      obtain ⟨rest, hrest, h⟩ := except_bind_eq_ok.mp h
      cases h
      obtain ⟨hw, rfl⟩ := waitTurn_eq_ok_iff.mp hturn
      obtain ⟨hwaits, rfl⟩ := ih.mp hrest
      exact ⟨⟨hw, hwaits⟩, rfl⟩
    · rintro ⟨⟨hw, hwaits⟩, rfl⟩
      refine ⟨_, waitTurn_eq_ok_iff.mpr ⟨hw, rfl⟩, ?_⟩
      rw [ih.mpr ⟨hwaits, rfl⟩]
      rfl

/-! ### The start -/

/-- **When the main loop is reached**: every ping, pong and request gets through;
every packet decodes until a pong comes; and no packet that comes after it is
shorter than a tag or makes decoding panic. -/
theorem startup_eq_ok_iff {x : Startup F} {log : List Datagram} :
    startup env x = .ok log ↔
      x.ping_sent = true ∧ (∀ w ∈ beforePong env x.attempts.toList, Passes env w) ∧
        ∃ initial_pull, (createPullRequestMessage env.pull x.probe
            (.new env.node.verifyingKey x.wallclock env.gossip_addr x.rest)).Yields initial_pull ∧
          Returns (decodeFrom env.libs env.build initial_pull.bytes) ∧ x.pull_sent = true ∧
          (∀ w ∈ x.waits.toList, WaitPasses env w) ∧
          log = pingTo env x.token ::
            (beforePong env x.attempts.toList).filterMap (pingFor env) ++
              ⟨env.entrypoint, initial_pull.bytes⟩ ::
                x.waits.toList.flatMap fun w => (pongFor env w).toList := by
  rw [startup, except_bind_eq_ok]
  constructor
  · rintro ⟨ping, hping, h⟩
    obtain ⟨⟨pong_ok, pings⟩, hhandshake, h⟩ := except_bind_eq_ok.mp h
    obtain ⟨built, hbuilt, h⟩ := except_bind_eq_ok.mp h
    obtain ⟨hsent, rfl⟩ := send_eq_ok_iff.mp hping
    obtain ⟨hpasses, -, rfl⟩ := handshake_eq_ok_iff.mp hhandshake
    cases built with
    | error e => cases h
    | ok initial_pull =>
      obtain ⟨msg, hmsg, h⟩ := except_bind_eq_ok.mp h
      obtain ⟨pull, hpull, h⟩ := except_bind_eq_ok.mp h
      obtain ⟨pongs, hpongs, h⟩ := except_bind_eq_ok.mp h
      cases h
      obtain ⟨hpull_sent, rfl⟩ := send_eq_ok_iff.mp hpull
      obtain ⟨hwaits, rfl⟩ := initialWait_eq_ok_iff.mp hpongs
      exact ⟨hsent, hpasses, initial_pull, orPanic_eq_ok.mp hbuilt, ⟨msg, orPanic_eq_ok.mp hmsg⟩,
        hpull_sent, hwaits, rfl⟩
  · rintro ⟨hsent, hpasses, initial_pull, hbuilt, ⟨msg, hmsg⟩, hpull_sent, hwaits, rfl⟩
    refine ⟨_, send_eq_ok_iff.mpr ⟨hsent, rfl⟩, ?_⟩
    rw [handshake_eq_ok_iff.mpr ⟨hpasses, rfl, rfl⟩]
    refine except_bind_eq_ok.mpr ⟨_, rfl, ?_⟩
    refine except_bind_eq_ok.mpr ⟨_, orPanic_eq_ok.mpr hbuilt, ?_⟩
    refine except_bind_eq_ok.mpr ⟨_, orPanic_eq_ok.mpr hmsg, ?_⟩
    refine except_bind_eq_ok.mpr ⟨_, send_eq_ok_iff.mpr ⟨hpull_sent, rfl⟩, ?_⟩
    exact except_bind_eq_ok.mpr ⟨_, initialWait_eq_ok_iff.mpr ⟨hwaits, rfl⟩, rfl⟩

end Startup

end Sg32
