/-
What the main loop sends (`main.rs`, `repair.rs`).

Everything sent is a pong for a ping that arrived or a request of a poll.  The
polls keep their distance, but the sleep between them starts over with every
packet: a stream of packets without a gap of one second keeps the loop from
asking for anything.

* `pongs_eq` — one pong for each ping, and no packet that is sent is a ping;
* `requests_perm` — exactly which requests are sent, how often, and to where;
* `requests_signed` — every request names its recipient, and its signature
  verifies;
* `asks_le` — how often a validator is asked;
* `starved` — no request while packets keep coming.
-/
import Sg32.NodeLoop

namespace Sg32

open Rust Bytes Reactor

namespace MainLoop

variable {env : NodeEnv} {s s' : MainLoop} {e : NodeEvent} {events : List NodeEvent}
  {log : List Datagram} {d : Datagram}

/-! ### Pongs -/

theorem length_pongFor (h : pongFor env e = some d) : d.bytes.length = PING_BYTES := by
  cases e with
  | contactInfo ci => cases h
  | wake slot now done requests => cases h
  | datagram packet peer io =>
    rw [pongFor] at h
    split at h
    · cases h
      exact length_buildPong _ _ _
    · cases h

theorem mem_requestsTo {slot : UInt64} {requests : Pubkey → ℕ → RequestEnv}
    {validator : (_ : Pubkey) × SocketAddr} : d ∈ requestsTo env slot requests validator ↔
      ∃ idx < NUM_DATA_SHREDS + NUM_CODE_SHREDS, ∃ timestamp,
        (requests validator.1 idx).timestamp = some timestamp ∧
        d = { dest := validator.2
              bytes := repairRequest env.our_key validator.1 timestamp
                (requests validator.1 idx).nonce slot (.ofNat idx) } := by
  simp only [requestsTo, List.mem_filterMap, List.mem_range, sendRepairRequest,
    Option.bind_eq_bind, Option.map_eq_some_iff, Option.bind_eq_some_iff, Option.some.injEq,
    Prod.exists, Prod.mk.injEq]
  constructor
  · rintro ⟨idx, hidx, nonce, d, ⟨timestamp, htimestamp, rfl, rfl⟩, rfl⟩
    exact ⟨idx, hidx, timestamp, htimestamp, rfl⟩
  · rintro ⟨idx, hidx, timestamp, htimestamp, rfl⟩
    exact ⟨idx, hidx, _, _, ⟨timestamp, htimestamp, rfl, rfl⟩, rfl⟩

theorem mem_requestsFor : d ∈ requestsFor env s e ↔ ∃ slot now done requests,
    e = .wake slot now done requests ∧ PollDue s.last_repair_poll slot now ∧
      ∃ pk addr, s.validators.lookup pk = some addr ∧
        d ∈ requestsTo env slot requests ⟨pk, addr⟩ := by
  cases e with
  | contactInfo ci => simp [requestsFor]
  | datagram packet peer io => simp [requestsFor]
  | wake slot now done requests =>
    rw [requestsFor]
    split_ifs with hdue
    · simp only [pollRequests, List.mem_flatMap, Sigma.exists, ← AList.mem_lookup_iff,
        Option.mem_def]
      constructor
      · rintro ⟨pk, addr, hlookup, hd⟩
        exact ⟨slot, now, done, requests, rfl, hdue, pk, addr, hlookup, hd⟩
      · rintro ⟨slot, now, done, requests, h, -, pk, addr, hlookup, hd⟩
        cases h
        exact ⟨pk, addr, hlookup, hd⟩
    · constructor
      · intro h
        cases h
      · rintro ⟨slot, now, done, requests, h, hdue', -⟩
        cases h
        exact absurd hdue' hdue

theorem length_requestsFor (h : d ∈ requestsFor env s e) : d.bytes.length = 160 := by
  obtain ⟨slot, now, done, requests, -, -, pk, addr, -, hd⟩ := mem_requestsFor.mp h
  obtain ⟨idx, -, timestamp, -, rfl⟩ := mem_requestsTo.mp hd
  exact length_repairRequest ..

/-- The packets of the length of a ping. -/
def pongs (log : List Datagram) : List Datagram :=
  log.filter fun d => d.bytes.length = PING_BYTES

/-- The packets of another length. -/
def requests (log : List Datagram) : List Datagram :=
  log.filter fun d => d.bytes.length ≠ PING_BYTES

theorem pongs_step (h : step env s e = .ok (s', log)) : pongs log = (pongFor env e).toList := by
  rw [(step_eq_ok h).1, pongs, List.filter_append]
  have hrequests : ∀ d ∈ requestsFor env s e, ¬ d.bytes.length = PING_BYTES := by
    intro d hd
    rw [length_requestsFor hd]
    decide
  have hpong : ∀ d ∈ (pongFor env e).toList, d.bytes.length = PING_BYTES :=
    fun d hd => length_pongFor (Option.mem_toList.mp hd)
  rw [List.filter_eq_self.mpr (by simpa using hpong), List.filter_eq_nil_iff.mpr (by
    simpa using hrequests), List.append_nil]

theorem requests_step (h : step env s e = .ok (s', log)) : requests log = requestsFor env s e := by
  rw [(step_eq_ok h).1, requests, List.filter_append]
  have hrequests : ∀ d ∈ requestsFor env s e, d.bytes.length ≠ PING_BYTES := by
    intro d hd
    rw [length_requestsFor hd]
    decide
  have hpong : ∀ d ∈ (pongFor env e).toList, d.bytes.length = PING_BYTES :=
    fun d hd => length_pongFor (Option.mem_toList.mp hd)
  rw [List.filter_eq_nil_iff.mpr (by simpa using hpong), List.filter_eq_self.mpr (by
    simpa using hrequests), List.nil_append]

/-- A packet of a run is not a ping, so another node does not answer it. -/
theorem not_isPing_of_mem_step (h : step env s e = .ok (s', log)) (hd : d ∈ log) :
    ¬ IsPing d.bytes := by
  rintro ⟨hlen, htag⟩
  have hpong : d ∈ pongs log := List.mem_filter.mpr ⟨hd, by simpa using hlen⟩
  rw [pongs_step h] at hpong
  cases e with
  | contactInfo ci => cases hpong
  | wake slot now done requests => cases hpong
  | datagram packet peer io =>
    rw [pongFor] at hpong
    split at hpong
    · obtain rfl := List.mem_singleton.mp hpong
      exact absurd htag (by simp [buildPong, le32, leBytes])
    · cases hpong

/-- **One pong for each ping**, in order, as long as the ping and back to its
sender; and nothing that is sent is a ping. -/
theorem pongs_eq (h : run env s events = .ok (s', log)) :
    pongs log = events.filterMap (pongFor env) ∧ ∀ d ∈ log, ¬ IsPing d.bytes := by
  refine react_invariant (fun seen _ log =>
    pongs log = seen.filterMap (pongFor env) ∧ ∀ d ∈ log, ¬ IsPing d.bytes) ⟨rfl, by simp⟩ ?_ h
  rintro seen mid out e next new ⟨hpongs, hping⟩ hstep
  refine ⟨?_, fun d hd => ?_⟩
  · rw [pongs, List.filter_append, List.filterMap_append]
    show pongs out ++ pongs new = _
    rw [hpongs, pongs_step hstep]
    cases hpong : pongFor env e <;> simp [hpong]
  · rcases List.mem_append.mp hd with hold | hnew
    · exact hping d hold
    · exact not_isPing_of_mem_step hstep hnew

theorem pongs_eq_sample : pongs (samplePong :: sampleRequests) = [samplePong] ∧
    ∀ d ∈ samplePong :: sampleRequests, ¬ IsPing d.bytes := by
  obtain ⟨hpongs, hping⟩ := pongs_eq run_sampleTraffic
  refine ⟨hpongs.trans ?_, hping⟩
  have hpong : pongFor sampleNodeEnv
      (.datagram (pingPacket.encode samplePing) samplePinger allWritten) = some samplePong := by
    rw [pongFor, List.take_of_length_le (by rw [length_pingPacket]; decide),
      parseResponse_pingPacket]
    rfl
  rw [sampleTraffic, List.filterMap_cons, List.filterMap_cons, hpong]
  rfl

/-! ### Requests -/

/-- The requests of a run are those of its turns. -/
theorem mem_requests (h : run env s events = .ok (s', log)) : d ∈ requests log ↔
    ∃ before e after mid first, events = before ++ e :: after ∧
      run env s before = .ok (mid, first) ∧ d ∈ requestsFor env mid e := by
  rw [requests, List.mem_filter, mem_log h]
  constructor
  · rintro ⟨⟨before, e, after, mid, first, next, out, hevents, hbefore, hstep, hd⟩, hlen⟩
    refine ⟨before, e, after, mid, first, hevents, hbefore, ?_⟩
    rw [← requests_step hstep]
    exact List.mem_filter.mpr ⟨hd, hlen⟩
  · rintro ⟨before, e, after, mid, first, rfl, hbefore, hd⟩
    obtain ⟨mid', first', rest, hbefore', hrest, -⟩ := react_append_eq_ok.mp h
    obtain ⟨next, out, last, hstep, -, -⟩ := react_cons_eq_ok.mp hrest
    cases hbefore.symm.trans hbefore'
    rw [← requests_step hstep] at hd
    obtain ⟨hmem, hlen⟩ := List.mem_filter.mp hd
    exact ⟨⟨before, e, after, mid, first, next, out, rfl, hbefore, hstep, hmem⟩, hlen⟩

/-- What is known after a run from a loop that knew of no validator. -/
theorem known_of_run (hstart : s.validators = ∅) (h : run env s events = .ok (s', log)) :
    (∀ pk, s'.validators.lookup pk = lastAddr pk events) ∧
      s'.last_repair_poll = lastPoll s.last_repair_poll events := by
  obtain ⟨hvalidators, hpoll⟩ := run_known h
  refine ⟨fun pk => ?_, hpoll⟩
  rw [hvalidators pk, hstart, AList.lookup_empty, Option.or_none]

/-- Where a request of a run comes from. -/
theorem exists_of_mem_requests (h : run env s events = .ok (s', log)) (hstart : s.validators = ∅)
    (hd : d ∈ requests log) : ∃ before slot now done envs after pk addr idx timestamp,
      events = before ++ .wake slot now done envs :: after ∧
      PollDue (lastPoll s.last_repair_poll before) slot now ∧
      lastAddr pk before = some addr ∧ idx < NUM_DATA_SHREDS + NUM_CODE_SHREDS ∧
      (envs pk idx).timestamp = some timestamp ∧
      d = { dest := addr
            bytes := repairRequest env.our_key pk timestamp (envs pk idx).nonce slot
              (.ofNat idx) } := by
  obtain ⟨before, e, after, mid, first, hevents, hbefore, hd⟩ := (mem_requests h).mp hd
  obtain ⟨hvalidators, hpoll⟩ := known_of_run hstart hbefore
  obtain ⟨slot, now, done, envs, rfl, hdue, pk, addr, haddr, hd⟩ := mem_requestsFor.mp hd
  obtain ⟨idx, hidx, timestamp, htimestamp, hd⟩ := mem_requestsTo.mp hd
  rw [hpoll] at hdue
  rw [hvalidators] at haddr
  exact ⟨before, slot, now, done, envs, after, pk, addr, idx, timestamp, hevents, hdue, haddr,
    hidx, htimestamp, hd⟩

/-- The validators that gossiped an address, each once and with its last one. -/
def validatorsAfter (events : List NodeEvent) : List ((_ : Pubkey) × SocketAddr) :=
  let keys := events.filterMap fun
    | .contactInfo ci => some ci.pubkey
    | _ => none
  keys.dedup.filterMap fun pk => (lastAddr pk events).map (Sigma.mk pk)

/-- What an event calls for after some others: at the end of a sleep with a slot,
five seconds after the last poll, one request for each validator and each of
the 64 shreds that gets a time. -/
def requestsDueAt (env : NodeEnv) (start : ℕ) (before : List NodeEvent) :
    NodeEvent → List Datagram
  | .wake slot now _ envs =>
    if PollDue (lastPoll start before) slot now then
      (validatorsAfter before).flatMap fun validator =>
        (List.range (NUM_DATA_SHREDS + NUM_CODE_SHREDS)).filterMap fun idx =>
          (envs validator.1 idx).timestamp.map fun timestamp =>
            { dest := validator.2
              bytes := repairRequest env.our_key validator.1 timestamp
                (envs validator.1 idx).nonce slot (.ofNat idx) }
    else []
  | _ => []

/-- What the events call for, one after the other. -/
def requestsDue (env : NodeEnv) (start : ℕ) : List NodeEvent → List NodeEvent → List Datagram
  | _, [] => []
  | before, e :: after =>
    requestsDueAt env start before e ++ requestsDue env start (before ++ [e]) after

theorem repairAddr_eq_some {pk : Pubkey} {addr : SocketAddr} (h : repairAddr pk e = some addr) :
    ∃ ci, e = .contactInfo ci ∧ ci.pubkey = pk := by
  cases e with
  | contactInfo ci =>
    rw [repairAddr] at h
    split_ifs at h with hpk
    exact ⟨ci, rfl, hpk⟩
  | wake slot now done requests => cases h
  | datagram packet peer io => cases h

theorem mem_validatorsAfter {validator : (_ : Pubkey) × SocketAddr} :
    validator ∈ validatorsAfter events ↔ lastAddr validator.1 events = some validator.2 := by
  obtain ⟨pk, addr⟩ := validator
  rw [validatorsAfter, List.mem_filterMap]
  constructor
  · rintro ⟨pk', -, h⟩
    obtain ⟨addr', haddr, heq⟩ := Option.map_eq_some_iff.mp h
    cases heq
    exact haddr
  · intro h
    refine ⟨pk, List.mem_dedup.mpr ?_, by rw [h]; rfl⟩
    -- the last address came with a contact info
    obtain ⟨e, he, haddr⟩ := List.mem_filterMap.mp (List.mem_of_getLast? h)
    obtain ⟨ci, rfl, rfl⟩ := repairAddr_eq_some haddr
    exact List.mem_filterMap.mpr ⟨_, he, rfl⟩

theorem nodup_validatorsAfter (events : List NodeEvent) : (validatorsAfter events).Nodup := by
  refine (List.nodup_dedup _).filterMap fun pk pk' validator h h' => ?_
  obtain ⟨addr, -, rfl⟩ := Option.map_eq_some_iff.mp h
  obtain ⟨addr', -, heq⟩ := Option.map_eq_some_iff.mp h'
  exact (Sigma.mk.inj heq).1.symm

/-- The map has the same validators, in whatever order. -/
theorem entries_perm (hstart : s.validators = ∅) (h : run env s events = .ok (s', log)) :
    s'.validators.entries.Perm (validatorsAfter events) := by
  refine (List.perm_ext_iff_of_nodup s'.validators.nodupKeys.nodup
    (nodup_validatorsAfter events)).mpr fun validator => ?_
  rw [mem_validatorsAfter, ← (known_of_run hstart h).1]
  exact AList.mem_lookup_iff.symm

theorem requestsFor_perm (hstart : s.validators = ∅) (h : run env s events = .ok (s', log))
    (e : NodeEvent) :
    (requestsFor env s' e).Perm (requestsDueAt env s.last_repair_poll events e) := by
  cases e with
  | contactInfo ci => exact .nil
  | datagram packet peer io => exact .nil
  | wake slot now done envs =>
    rw [requestsFor, requestsDueAt, (known_of_run hstart h).2]
    split_ifs
    · refine List.Perm.trans (.of_eq ?_) ((entries_perm hstart h).flatMap_right _)
      refine List.flatMap_congr fun validator _ => List.filterMap_congr fun idx _ => ?_
      cases htimestamp : (envs validator.1 idx).timestamp <;>
        simp [sendRepairRequest, htimestamp]
    · exact .nil

/-- **Exactly which requests are sent**, each as often as it is due: the order is
that of the polls, and within a poll the one of a hash map. -/
theorem requests_perm (hstart : s.validators = ∅) (h : run env s events = .ok (s', log)) :
    (requests log).Perm (requestsDue env s.last_repair_poll [] events) := by
  -- after some events the rest is sent as it is due then
  suffices hrest : ∀ (after before : List NodeEvent) (mid s' : MainLoop)
      (first log : List Datagram),
      run env s before = .ok (mid, first) → run env mid after = .ok (s', log) →
        (requests log).Perm (requestsDue env s.last_repair_poll before after) from
    hrest events [] s s' [] log rfl h
  intro after
  induction after with
  | nil =>
    intro before mid s' first log _ hafter
    cases hafter
    exact .nil
  | cons e after ih =>
    intro before mid s' first log hbefore hafter
    obtain ⟨next, out, rest, hstep, hrest, rfl⟩ := react_cons_eq_ok.mp hafter
    have hturn := requestsFor_perm hstart hbefore e
    rw [← requests_step hstep] at hturn
    have hnext : run env s (before ++ [e]) = .ok (next, first ++ out) :=
      react_concat_eq_ok.mpr ⟨mid, first, out, hbefore, hstep, rfl⟩
    rw [requests, List.filter_append]
    exact hturn.append (ih (before ++ [e]) next s' _ rest hnext hrest)

/-- 64 requests of one poll. -/
theorem requests_perm_sample :
    (requests (samplePong :: sampleRequests)).Perm
        (requestsDue sampleNodeEnv 0 [] sampleTraffic) ∧
      (requestsDue sampleNodeEnv 0 [] sampleTraffic).length = NUM_DATA_SHREDS + NUM_CODE_SHREDS :=
  ⟨requests_perm rfl run_sampleTraffic, by decide +kernel⟩

/-- The packet is a request to this validator. -/
def asks (pk : Pubkey) (d : Datagram) : Bool :=
  (WindowIndex.codec.decodeAll d.bytes).any fun request => request.recipient = pk

theorem asks_request (env : NodeEnv) (pk other : Pubkey) (dest : SocketAddr) (timestamp : UInt64)
    (nonce : UInt32) (slot shred_idx : UInt64) :
    asks pk ⟨dest, repairRequest env.our_key other timestamp nonce slot shred_idx⟩ =
      decide (other = pk) := by
  rw [asks, decodeAll_repairRequest]
  rfl

theorem asks_eq_false (pk : Pubkey) (hlen : d.bytes.length = PING_BYTES) : asks pk d = false := by
  rw [asks]
  cases hread : WindowIndex.codec.decodeAll d.bytes with
  | none => rfl
  | some request =>
    obtain ⟨-, hbytes⟩ := Codec.decodeAll_eq_some_iff.mp hread
    rw [hbytes, WindowIndex.encode_codec] at hlen
    simp [PING_BYTES] at hlen

/-- One poll asks a validator for 64 shreds at most. -/
theorem countP_pollRequests_le (env : NodeEnv) (pk : Pubkey)
    (validators : AList fun _ : Pubkey => SocketAddr) (slot : UInt64)
    (envs : Pubkey → ℕ → RequestEnv) :
    (pollRequests env validators slot envs).countP (asks pk) ≤
      NUM_DATA_SHREDS + NUM_CODE_SHREDS := by
  have hother : ∀ v : (_ : Pubkey) × SocketAddr, v.1 ≠ pk →
      (requestsTo env slot envs v).countP (asks pk) = 0 := by
    intro v hne
    refine List.countP_eq_zero.mpr fun d hd => ?_
    obtain ⟨idx, -, timestamp, -, rfl⟩ := mem_requestsTo.mp hd
    rw [asks_request, decide_eq_true_iff]
    exact hne
  have hone : ∀ v : (_ : Pubkey) × SocketAddr,
      (requestsTo env slot envs v).countP (asks pk) ≤ NUM_DATA_SHREDS + NUM_CODE_SHREDS := by
    intro v
    refine List.countP_le_length.trans ((List.length_filterMap_le _ _).trans ?_)
    rw [List.length_range]
  -- no other entry has the key of the validator
  obtain ⟨entries, hkeys⟩ := validators
  show (entries.flatMap (requestsTo env slot envs)).countP (asks pk) ≤ _
  induction entries with
  | nil => exact Nat.zero_le _
  | cons v vs ih =>
    rw [List.nodupKeys_cons] at hkeys
    rw [List.flatMap_cons, List.countP_append]
    by_cases hv : v.1 = pk
    · have hrest : (vs.flatMap (requestsTo env slot envs)).countP (asks pk) = 0 := by
        rw [List.countP_flatMap, List.sum_eq_zero_iff]
        simp only [List.mem_map, Function.comp_apply, forall_exists_index, and_imp,
          forall_apply_eq_imp_iff₂]
        intro w hw
        refine hother w fun hw' => hkeys.1 ?_
        rw [hv, ← hw']
        exact List.mem_keys_of_mem hw
      rw [hrest, Nat.add_zero]
      exact hone v
    · rw [hother v hv, Nat.zero_add]
      exact ih hkeys.2

/-- The clock does not go back while the requests are sent. -/
def NodeEvent.ClockAdvances : NodeEvent → Prop
  | .wake _ now done _ => now ≤ done
  | _ => True

/-- What one turn asks of a validator is paid for by the time since the last poll. -/
theorem asks_step (pk : Pubkey) (hclock : NodeEvent.ClockAdvances e)
    (h : step env s e = .ok (s', log)) :
    log.countP (asks pk) * REPAIR_POLL_MILLIS +
        (NUM_DATA_SHREDS + NUM_CODE_SHREDS) * s.last_repair_poll ≤
      (NUM_DATA_SHREDS + NUM_CODE_SHREDS) * s'.last_repair_poll := by
  obtain ⟨rfl, -, hpoll⟩ := step_eq_ok h
  have hpong : (pongFor env e).toList.countP (asks pk) = 0 := by
    refine List.countP_eq_zero.mpr fun d hd => ?_
    rw [asks_eq_false pk (length_pongFor (Option.mem_toList.mp hd))]
    exact Bool.false_ne_true
  rw [List.countP_append, hpong, hpoll, Nat.zero_add]
  cases e with
  | contactInfo ci => simp [requestsFor, pollTime]
  | datagram packet peer io => simp [requestsFor, pollTime]
  | wake slot now done envs =>
    rw [requestsFor, pollTime]
    split_ifs with hdue
    · have hcount := countP_pollRequests_le env pk s.validators slot envs
      have hmillis := hdue.2
      have hadvance : now ≤ done := hclock
      rw [REPAIR_POLL_MILLIS] at hmillis ⊢
      rw [show NUM_DATA_SHREDS + NUM_CODE_SHREDS = 64 from rfl] at hcount ⊢
      omega
    · simp

/-- **A validator is asked at most 64 times in five seconds**, however the
events fall. -/
theorem asks_le (pk : Pubkey) (hclock : ∀ e ∈ events, NodeEvent.ClockAdvances e)
    (h : run env s events = .ok (s', log)) :
    log.countP (asks pk) * REPAIR_POLL_MILLIS ≤
      (NUM_DATA_SHREDS + NUM_CODE_SHREDS) * (s'.last_repair_poll - s.last_repair_poll) := by
  have hinv := react_invariant (fun seen s' log =>
    (∀ e ∈ seen, NodeEvent.ClockAdvances e) → log.countP (asks pk) * REPAIR_POLL_MILLIS +
        (NUM_DATA_SHREDS + NUM_CODE_SHREDS) * s.last_repair_poll ≤
      (NUM_DATA_SHREDS + NUM_CODE_SHREDS) * s'.last_repair_poll) (by simp) ?_ h hclock
  · rw [Nat.mul_sub]
    exact Nat.le_sub_of_add_le hinv
  · intro seen mid out e next new hmid hstep hclock
    have hold := hmid fun e he => hclock e (List.mem_append_left _ he)
    have hnew := asks_step pk (hclock e (by simp)) hstep
    rw [List.countP_append, Nat.add_mul]
    omega

theorem asks_le_sample :
    (samplePong :: sampleRequests).countP (asks sampleContactInfo.pubkey) * REPAIR_POLL_MILLIS ≤
      (NUM_DATA_SHREDS + NUM_CODE_SHREDS) * (6010 - 0) :=
  asks_le sampleContactInfo.pubkey
    (by simp [sampleTraffic, NodeEvent.ClockAdvances]) run_sampleTraffic

/-! ### Starvation -/

/-- How long the loop sleeps, in milliseconds. -/
def SLEEP_MILLIS : ℕ := 1000

/-- The end of a sleep. -/
def Wakes (e : NodeEvent) : Prop := ∃ slot now done envs, e = .wake slot now done envs

/-- What arrives is a contact info or a packet. -/
def Arrives : NodeEvent → Prop
  | .wake _ _ _ _ => False
  | _ => True

theorem requests_eq_nil (harrives : ∀ e ∈ events, Arrives e)
    (h : run env s events = .ok (s', log)) : requests log = [] := by
  refine List.eq_nil_iff_forall_not_mem.mpr fun d hd => ?_
  obtain ⟨before, e, after, mid, first, rfl, -, hd⟩ := (mem_requests h).mp hd
  obtain ⟨slot, now, done, envs, rfl, -⟩ := mem_requestsFor.mp hd
  exact harrives (.wake slot now done envs) (by simp)

/-- **While something arrives in every second, no request is sent**, whatever it
is that arrives. -/
theorem starved {now : ℕ} {arrivals : List (ℕ × NodeEvent)} {turns : List (ℕ × Option NodeEvent)}
    (harrives : ∀ a ∈ arrivals, Arrives a.2)
    (hschedule : Schedule SLEEP_MILLIS now arrivals turns)
    (hgap : NoGap SLEEP_MILLIS now arrivals) (hfits : List.Forall₂ (TurnOf Wakes) turns events)
    (h : run env s (events.take arrivals.length) = .ok (s', log)) : requests log = [] := by
  refine requests_eq_nil (fun e he => ?_) h
  obtain ⟨a, ha, rfl⟩ := hschedule.mem_of_noGap hgap hfits e he
  exact harrives a ha

/-- Two empty packets in less than a second, and the end of a sleep. -/
theorem starved_sample : ∃ s' log,
    run sampleNodeEnv (.start 0 .empty ∅) [.datagram [] samplePeer allWritten,
      .datagram [] samplePeer allWritten] = .ok (s', log) ∧ requests log = [] := by
  have hschedule : Schedule SLEEP_MILLIS 100
      [(900, NodeEvent.datagram [] samplePeer allWritten),
        (1800, .datagram [] samplePeer allWritten)]
      [(900, some (.datagram [] samplePeer allWritten)),
        (1800, some (.datagram [] samplePeer allWritten)), (2800, none)] :=
    @Schedule.arrival _ _ _ _ 0 _ _ _ (by decide) (@Schedule.arrival _ _ _ _ 0 _ _ _ (by decide)
      (@Schedule.wake _ _ _ 0 _ _ (by simp) (.stop _ _)))
  have hfits : List.Forall₂ (TurnOf Wakes)
      [(900, some (.datagram [] samplePeer allWritten)),
        (1800, some (.datagram [] samplePeer allWritten)), (2800, none)]
      [.datagram [] samplePeer allWritten, .datagram [] samplePeer allWritten,
        .wake 7 6000 6010 fun _ _ => { nonce := 9, timestamp := none }] :=
    .cons rfl (.cons rfl (.cons ⟨_, _, _, _, rfl⟩ .nil))
  have hrun : run sampleNodeEnv (.start 0 .empty ∅) [.datagram [] samplePeer allWritten,
      .datagram [] samplePeer allWritten] = .ok (.start 0 .empty ∅, []) := rfl
  exact ⟨_, _, hrun,
    starved (by simp [Arrives]) hschedule (by simp [NoGap, SLEEP_MILLIS]) hfits hrun⟩

end MainLoop

end Sg32
