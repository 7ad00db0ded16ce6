/-
Pull requests (`pull_request.rs`, and the rotation in `lib.rs`).

One message is built for each part of the hash space.  The entrypoint gets all
of them in every round, each other peer one of them, in turn.

* `exists_yields_createPullRequestMessages` — when the messages are built;
* `getElem?_messages` — the message at an index asks for the part of that seed;
* `existsUnique_turn` — a counter that wraps around still takes its turns;
* `pullRequests_cover` — the messages, and the rounds of one peer, ask for
  every hash exactly once.
-/
import Mathlib.Data.Nat.ModEq
import Sg32.Gossip.Crds
import Sg32.Gossip.CrdsFilter

namespace Sg32

open Rust

/-! ### Messages -/

inductive PullRequestErrorMessages
  | noSocketEntry
  | serializeFailed
  deriving DecidableEq

/-- What building a message takes from other code: signing, the sizes of the
encodings, the parts that a Bloom filter of some size asks for, and the
encoding of a packet. -/
structure PullEnv (F : Type) where
  newContactInfo : ContactInfo → CrdsValue
  serializedSize : CrdsValue → Option ℕ
  getMaxBloomFilterBytes : ℕ → ℕ
  computeMaskBits : (bloom_max_bytes num_items : ℕ) → UInt32
  encodeTo : CrdsFilter F → CrdsValue → Option Bytes

/-- The bytes of a packet, with the filter and the caller that they encode. -/
structure PullRequest {F : Type} (env : PullEnv F) where
  filter : CrdsFilter F
  caller : CrdsValue
  bytes : Bytes
  encoded : env.encodeTo filter caller = some bytes

variable {F : Type} (env : PullEnv F)

/-- The computation fails with a message, or panics. -/
abbrev Pull (α : Type) := ExceptT PullRequestErrorMessages Checked α

/-- The computation ends with a value. -/
def Pull.Yields {α : Type} (x : Pull α) (a : α) : Prop := x.run = .ok (.ok a)

/-- `Protocol::PullRequest(filter, caller).encode_to()`. -/
def encodePullRequest (filter : CrdsFilter F) (caller : CrdsValue) : Pull (PullRequest env) :=
  match h : env.encodeTo filter caller with
  | some bytes => pure { filter := filter, caller := caller, bytes := bytes, encoded := h }
  | none => throw .serializeFailed

/-- `mask_bits` of the filters sent for a caller. -/
def maskBitsFor (caller_size : ℕ) : UInt32 :=
  env.computeMaskBits (env.getMaxBloomFilterBytes caller_size) 0

/-- `mask_bits` of the filters sent for a node, when its contact info has an
encoding. -/
def contactMaskBits (contact_info : ContactInfo) : Option UInt32 :=
  (env.serializedSize (env.newContactInfo contact_info)).map (maskBitsFor env)

/-- The loop body: the message of one part. -/
def partitionMessage (bloom : ℕ → F) (mask_bits : UInt32) (caller : CrdsValue) (seed : ℕ) :
    Pull (PullRequest env) := do
  let filter ← (CrdsFilter.newSeeded (bloom seed) mask_bits seed.toUInt64 : Checked _)
  encodePullRequest env filter caller

/-- `bloom` are the filters that `Bloom::random` returns, `probe` the first one. -/
def createPullRequestMessages (probe : F) (bloom : ℕ → F) (contact_info : ContactInfo) :
    Pull (List (PullRequest env)) :=
  if contact_info.sockets.isEmpty then throw .noSocketEntry
  else
    let signed_info := env.newContactInfo contact_info
    match env.serializedSize signed_info with
    | none => throw .serializeFailed
    | some caller_size => do
      let mask_bits := maskBitsFor env caller_size
      let probe ← (CrdsFilter.newSeeded probe mask_bits 0 : Checked _)
      let num_partitions := 2 ^ min probe.mask_bits.toNat 63
      (List.range num_partitions).mapM (partitionMessage env bloom mask_bits signed_info)

/-- What one round sends to a peer other than the entrypoint. -/
def rotatingMessage {α : Type} (messages : List α) (pull_round : UInt64) : Option α :=
  let num := messages.length.toUInt64
  if num > 0 then messages[(pull_round % num).toNat]? else none

/-- The round counter after some rounds. -/
def pullRoundAfter (pull_round : UInt64) : ℕ → UInt64
  | 0 => pull_round
  | n + 1 => pullRoundAfter pull_round n + 1

/-! ### What is built -/

namespace Pull

variable {α β : Type}

theorem yields_pure {a b : α} : Yields (pure a : Pull α) b ↔ a = b := by
  show (Except.ok (Except.ok a) : Checked (Except _ α)) = _ ↔ _
  rw [Except.ok.injEq, Except.ok.injEq]

theorem not_yields_throw {e : PullRequestErrorMessages} {a : α} :
    ¬Yields (throw e : Pull α) a := by
  intro h
  cases h

theorem yields_lift {c : Checked α} {a : α} : Yields (liftM c : Pull α) a ↔ c = .ok a := by
  cases c with
  | error p =>
    constructor
    · intro h
      cases h
    · intro h
      cases h
  | ok b =>
    show (Except.ok (Except.ok b) : Checked (Except _ α)) = _ ↔ _
    rw [Except.ok.injEq, Except.ok.injEq, Except.ok.injEq]

theorem yields_bind {x : Pull α} {f : α → Pull β} {b : β} :
    Yields (x >>= f) b ↔ ∃ a, Yields x a ∧ Yields (f a) b := by
  unfold Yields
  rw [ExceptT.run_bind]
  cases hrun : x.run with
  | error p => simp
  | ok r =>
    cases r with
    | error e =>
      simp only [ok_bind, Except.ok.injEq, reduceCtorEq, false_and, exists_false, iff_false]
      intro h
      cases h
    | ok a => simp

theorem yields_mapM {f : α → Pull β} {xs : List α} {ys : List β} :
    Yields (xs.mapM f) ys ↔ List.Forall₂ (fun x y => Yields (f x) y) xs ys := by
  induction xs generalizing ys with
  | nil =>
    rw [List.mapM_nil, yields_pure, List.forall₂_nil_left_iff]
    exact eq_comm
  | cons x xs ih =>
    rw [List.mapM_cons, yields_bind, List.forall₂_cons_left_iff]
    constructor
    · rintro ⟨y, hy, hrest⟩
      obtain ⟨ys', hys', hpure⟩ := yields_bind.mp hrest
      exact ⟨y, ys', hy, ih.mp hys', (yields_pure.mp hpure).symm⟩
    · rintro ⟨y, ys', hy, hys', rfl⟩
      exact ⟨y, hy, yields_bind.mpr ⟨ys', ih.mpr hys', yields_pure.mpr rfl⟩⟩

theorem exists_yields_mapM {f : α → Pull β} {xs : List α}
    (h : ∀ x ∈ xs, ∃ y, Yields (f x) y) : ∃ ys, Yields (xs.mapM f) ys := by
  induction xs with
  | nil => exact ⟨[], rfl⟩
  | cons x xs ih =>
    obtain ⟨y, hy⟩ := h x List.mem_cons_self
    obtain ⟨ys, hys⟩ := ih fun x' hx' => h x' (List.mem_cons_of_mem x hx')
    exact ⟨y :: ys, yields_mapM.mpr (.cons hy (yields_mapM.mp hys))⟩

end Pull

variable {env}

theorem filter_of_yields_encodePullRequest {filter : CrdsFilter F} {caller : CrdsValue}
    {message : PullRequest env} (h : (encodePullRequest env filter caller).Yields message) :
    message.filter = filter := by
  unfold encodePullRequest at h
  split at h
  · rw [← Pull.yields_pure.mp h]
  · exact absurd h Pull.not_yields_throw

/-- The message of a seed asks for the part of the seed. -/
theorem matches_of_yields_partitionMessage {bloom : ℕ → F} {mask_bits : UInt32}
    (hbits : mask_bits.toNat ≤ 63) {caller : CrdsValue} {seed : ℕ}
    (hseed : seed < 2 ^ mask_bits.toNat) {message : PullRequest env}
    (h : (partitionMessage env bloom mask_bits caller seed).Yields message) (hash : UInt64) :
    message.filter.Matches hash ↔ seed = seedOf mask_bits hash := by
  have hsize : 2 ^ mask_bits.toNat < 2 ^ 64 := Nat.pow_lt_pow_right (by decide) (by omega)
  have htoNat : seed.toUInt64.toNat = seed := UInt64.toNat_ofNat_of_lt' (hseed.trans hsize)
  obtain ⟨filter, hfilter, hmatches⟩ := CrdsFilter.newSeeded_eq_ok (bloom seed) hbits
    (by rwa [htoNat] : seed.toUInt64.toNat < 2 ^ mask_bits.toNat)
  obtain ⟨filter', hfilter', hencode⟩ := Pull.yields_bind.mp h
  have hsame : filter = filter' := by
    rw [← Except.ok.injEq, ← hfilter, ← Pull.yields_lift.mp hfilter']
  rw [filter_of_yields_encodePullRequest hencode, ← hsame, hmatches, htoNat]

theorem mask_bits_of_newSeeded_eq_ok {filter : F} {mask_bits : UInt32} {seed : UInt64}
    {crdsFilter : CrdsFilter F} (h : CrdsFilter.newSeeded filter mask_bits seed = .ok crdsFilter) :
    crdsFilter.mask_bits = mask_bits := by
  obtain ⟨mask, -, hfilter⟩ := bind_eq_ok.mp h
  rw [← Except.ok.inj hfilter]

theorem forall₂_of_yields_createPullRequestMessages {probe : F} {bloom : ℕ → F}
    {contact_info : ContactInfo} {messages : List (PullRequest env)}
    (h : (createPullRequestMessages env probe bloom contact_info).Yields messages) :
    ∃ mask_bits caller, contactMaskBits env contact_info = some mask_bits ∧
      List.Forall₂ (fun seed message =>
          (partitionMessage env bloom mask_bits caller seed).Yields message)
        (List.range (2 ^ min mask_bits.toNat 63)) messages := by
  unfold createPullRequestMessages at h
  rw [contactMaskBits]
  split_ifs at h
  · exact absurd h Pull.not_yields_throw
  dsimp only at h
  cases hsize : env.serializedSize (env.newContactInfo contact_info) with
  | none =>
    rw [hsize] at h
    exact absurd h Pull.not_yields_throw
  | some caller_size =>
    rw [hsize] at h
    obtain ⟨probe', hprobe, hloop⟩ := Pull.yields_bind.mp h
    refine ⟨maskBitsFor env caller_size, env.newContactInfo contact_info, rfl, ?_⟩
    rw [mask_bits_of_newSeeded_eq_ok (Pull.yields_lift.mp hprobe)] at hloop
    exact Pull.yields_mapM.mp hloop

theorem exists_yields_encodePullRequest {filter : CrdsFilter F} {caller : CrdsValue}
    (h : (env.encodeTo filter caller).isSome) :
    ∃ message, (encodePullRequest env filter caller).Yields message := by
  unfold encodePullRequest
  split
  · exact ⟨_, rfl⟩
  · rename_i hnone
    rw [hnone] at h
    cases h

/-- With a socket, and when everything can be encoded, the messages are built. -/
theorem exists_yields_createPullRequestMessages (probe : F) (bloom : ℕ → F)
    {contact_info : ContactInfo} {mask_bits : UInt32} (hbits : mask_bits.toNat ≤ 63)
    (hsocket : contact_info.sockets ≠ [])
    (hcontact : contactMaskBits env contact_info = some mask_bits)
    (hencode : ∀ filter, (env.encodeTo filter (env.newContactInfo contact_info)).isSome) :
    ∃ messages, (createPullRequestMessages env probe bloom contact_info).Yields messages := by
  obtain ⟨caller_size, hsize, rfl⟩ := Option.map_eq_some_iff.mp hcontact
  have hseeded : ∀ (filter : F) seed, seed < 2 ^ (maskBitsFor env caller_size).toNat →
      ∃ crdsFilter, CrdsFilter.newSeeded filter (maskBitsFor env caller_size) seed.toUInt64 =
        .ok crdsFilter := by
    intro filter seed hseed
    have hsize : 2 ^ (maskBitsFor env caller_size).toNat < 2 ^ 64 :=
      Nat.pow_lt_pow_right (by decide) (by omega)
    have htoNat : seed.toUInt64.toNat = seed := UInt64.toNat_ofNat_of_lt' (hseed.trans hsize)
    obtain ⟨crdsFilter, hfilter, -⟩ := CrdsFilter.newSeeded_eq_ok filter hbits
      (by rwa [htoNat] : seed.toUInt64.toNat < 2 ^ (maskBitsFor env caller_size).toNat)
    exact ⟨crdsFilter, hfilter⟩
  obtain ⟨first, hfirst⟩ := hseeded probe 0 (Nat.two_pow_pos _)
  -- the loop: each part has a filter, and a message
  have hparts : ∀ seed ∈ List.range (2 ^ min first.mask_bits.toNat 63), ∃ message,
      (partitionMessage env bloom (maskBitsFor env caller_size)
        (env.newContactInfo contact_info) seed).Yields message := by
    intro seed hseed
    rw [mask_bits_of_newSeeded_eq_ok hfirst, Nat.min_eq_left hbits, List.mem_range] at hseed
    obtain ⟨filter, hfilter⟩ := hseeded (bloom seed) seed hseed
    obtain ⟨message, hmessage⟩ := exists_yields_encodePullRequest (hencode filter)
    exact ⟨message, Pull.yields_bind.mpr ⟨filter, Pull.yields_lift.mpr hfilter, hmessage⟩⟩
  obtain ⟨messages, hmessages⟩ := Pull.exists_yields_mapM hparts
  refine ⟨messages, ?_⟩
  rw [createPullRequestMessages, if_neg (by simpa using hsocket)]
  simp only [hsize]
  exact Pull.yields_bind.mpr ⟨first, Pull.yields_lift.mpr hfirst, hmessages⟩

/-- There is one message for each part, at the index of its seed. -/
theorem getElem?_messages {probe : F} {bloom : ℕ → F} {contact_info : ContactInfo}
    {mask_bits : UInt32} (hbits : mask_bits.toNat ≤ 63)
    (hcontact : contactMaskBits env contact_info = some mask_bits)
    {messages : List (PullRequest env)}
    (h : (createPullRequestMessages env probe bloom contact_info).Yields messages) :
    messages.length = 2 ^ mask_bits.toNat ∧
      ∀ seed message, messages[seed]? = some message →
        ∀ hash, message.filter.Matches hash ↔ seed = seedOf mask_bits hash := by
  obtain ⟨mask_bits', caller, hcontact', hmessages⟩ :=
    forall₂_of_yields_createPullRequestMessages h
  obtain rfl : mask_bits' = mask_bits := by
    rw [← Option.some.injEq, ← hcontact', hcontact]
  rw [Nat.min_eq_left hbits] at hmessages
  have hlength : messages.length = 2 ^ mask_bits'.toNat := by
    rw [← hmessages.length_eq, List.length_range]
  refine ⟨hlength, fun seed message hget => ?_⟩
  have hseed : seed < 2 ^ mask_bits'.toNat := by
    rw [← hlength]
    exact (List.getElem?_eq_some_iff.mp hget).1
  have hyields := List.forall₂_iff_get.mp hmessages |>.2 seed (by simpa using hseed)
    (by simpa [hlength] using hseed)
  obtain ⟨hlt, hget⟩ := List.getElem?_eq_some_iff.mp hget
  simp only [List.get_eq_getElem, List.getElem_range, hget] at hyields
  exact matches_of_yields_partitionMessage hbits hseed hyields

/-! ### The rotation -/

/-- A counter takes every turn once in any full round. -/
theorem existsUnique_turn {n j : ℕ} (hj : j < n) (start : ℕ) :
    ∃! k, k < n ∧ (start + k) % n = j := by
  have hn : 0 < n := Nat.zero_lt_of_lt hj
  have hle : start % n ≤ n := (Nat.mod_lt _ hn).le
  refine ⟨(j + (n - start % n)) % n, ⟨Nat.mod_lt _ hn, ?_⟩, ?_⟩
  · calc (start + (j + (n - start % n)) % n) % n
        = (start % n + (j + (n - start % n))) % n := by simp [Nat.add_mod]
      _ = (j + n) % n := by rw [show start % n + (j + (n - start % n)) = j + n by omega]
      _ = j := by rw [Nat.add_mod_right, Nat.mod_eq_of_lt hj]
  · rintro k ⟨hk, hturn⟩
    have hmod : start % n + k ≡ j + n [MOD n] := by
      rw [Nat.ModEq, Nat.mod_add_mod, hturn, Nat.add_mod_right, Nat.mod_eq_of_lt hj]
    have hk' : k ≡ j + (n - start % n) [MOD n] := by
      refine Nat.ModEq.add_left_cancel' (start % n) ?_
      rwa [show start % n + (j + (n - start % n)) = j + n by omega]
    rw [← Nat.mod_eq_of_lt hk]
    exact hk'

theorem toNat_pullRoundAfter (pull_round : UInt64) (k : ℕ) :
    (pullRoundAfter pull_round k).toNat = (pull_round.toNat + k) % 2 ^ 64 := by
  induction k with
  | zero => exact (Nat.mod_eq_of_lt pull_round.toNat_lt).symm
  | succ k ih =>
    rw [pullRoundAfter, UInt64.toNat_add, ih]
    show (_ + 1) % 2 ^ 64 = _
    rw [Nat.mod_add_mod, Nat.add_assoc]

theorem rotatingMessage_eq {α : Type} {messages : List α} {b : ℕ} (hb : b ≤ 63)
    (hlength : messages.length = 2 ^ b) (pull_round : UInt64) (k : ℕ) :
    rotatingMessage messages (pullRoundAfter pull_round k) =
      messages[(pull_round.toNat + k) % 2 ^ b]? := by
  have hlt : 2 ^ b < 2 ^ 64 := Nat.pow_lt_pow_right (by decide) (by omega)
  have hnum : messages.length.toUInt64.toNat = 2 ^ b := by
    rw [hlength]
    exact UInt64.toNat_ofNat_of_lt' hlt
  have hpos : messages.length.toUInt64 > 0 := by
    rw [gt_iff_lt, UInt64.lt_iff_toNat_lt, hnum]
    exact Nat.two_pow_pos b
  rw [rotatingMessage, if_pos hpos, UInt64.toNat_mod, hnum, toNat_pullRoundAfter,
    Nat.mod_mod_of_dvd _ (Nat.pow_dvd_pow 2 (by omega))]

/-- **Pull requests ask for every hash exactly once**: every hash is in the
part of one seed, one of the messages asks for it, and of any `2 ^ mask_bits`
rounds in a row one sends a peer a message that asks for it. -/
theorem pullRequests_cover (mask_bits : UInt32) (hbits : mask_bits.toNat ≤ 63) (hash : UInt64) :
    (∃! seed : UInt64, seed.toNat < 2 ^ mask_bits.toNat ∧
      computeMask seed mask_bits = .ok (hash ||| (maxU64 >>> mask_bits.toUInt64))) ∧
    (∀ (probe : F) (bloom : ℕ → F) contact_info (messages : List (PullRequest env)),
      contactMaskBits env contact_info = some mask_bits →
      (createPullRequestMessages env probe bloom contact_info).Yields messages →
      ∃! seed : ℕ, ∃ message : PullRequest env,
        messages[seed]? = some message ∧ message.filter.Matches hash) ∧
    ∀ (rounds : ℕ → List (PullRequest env)),
      (∀ k, ∃ (probe : F) (bloom : ℕ → F) (contact_info : ContactInfo),
        contactMaskBits env contact_info = some mask_bits ∧
          (createPullRequestMessages env probe bloom contact_info).Yields (rounds k)) →
      ∀ pull_round : UInt64, ∃! k, k < 2 ^ mask_bits.toNat ∧
        ∃ message : PullRequest env,
          rotatingMessage (rounds k) (pullRoundAfter pull_round k) = some message ∧
            message.filter.Matches hash := by
  have hseed := seedOf_lt hbits hash
  refine ⟨existsUnique_seed hbits hash, ?_, ?_⟩
  · intro probe bloom contact_info messages hcontact hmessages
    obtain ⟨hlength, hmatches⟩ := getElem?_messages hbits hcontact hmessages
    refine ⟨seedOf mask_bits hash, ?_, ?_⟩
    · have hget := List.getElem?_eq_getElem (hlength ▸ hseed)
      exact ⟨_, hget, (hmatches _ _ hget hash).mpr rfl⟩
    · rintro seed ⟨message, hget, hmatch⟩
      exact (hmatches seed message hget hash).mp hmatch
  · intro rounds hrounds pull_round
    -- round `k` sends the message of the turn `(pull_round + k) % 2 ^ mask_bits`
    have hround : ∀ k, (∃ message : PullRequest env,
        rotatingMessage (rounds k) (pullRoundAfter pull_round k) = some message ∧
          message.filter.Matches hash) ↔
        (pull_round.toNat + k) % 2 ^ mask_bits.toNat = seedOf mask_bits hash := by
      intro k
      obtain ⟨probe, bloom, contact_info, hcontact, hmessages⟩ := hrounds k
      obtain ⟨hlength, hmatches⟩ := getElem?_messages hbits hcontact hmessages
      have hturn : (pull_round.toNat + k) % 2 ^ mask_bits.toNat < (rounds k).length := by
        rw [hlength]
        exact Nat.mod_lt _ (Nat.two_pow_pos _)
      have hget := List.getElem?_eq_getElem hturn
      rw [rotatingMessage_eq hbits hlength, hget]
      constructor
      · rintro ⟨message, hmessage, hmatch⟩
        exact (hmatches _ message (hget.trans hmessage) hash).mp hmatch
      · intro hturn
        exact ⟨_, rfl, (hmatches _ _ hget hash).mpr hturn⟩
    simp only [hround]
    exact existsUnique_turn hseed pull_round.toNat

/-! ### Two parts -/

/-- Filters with one bit of seed; a packet is the first byte of its mask. -/
def sampleEnv : PullEnv Unit where
  newContactInfo info :=
    { signature := Vector.replicate 64 0, data := .contactInfo info, hash := Vector.replicate 32 0 }
  serializedSize _ := some 150
  getMaxBloomFilterBytes caller_size := 1228 - caller_size
  computeMaskBits _ _ := 1
  encodeTo filter _ := some [(filter.mask >>> 56).toUInt8]

def sampleInfo : ContactInfo where
  pubkey := CrdsTable.samplePubkey
  wallclock := 1000
  addrs := [.v4 ⟨#[10, 0, 0, 1], rfl⟩]
  sockets := [{ key := 0, index := 0, offset := 8001 }]
  rest := []

theorem pullRequests_cover_sample :
    ∃ messages, (createPullRequestMessages sampleEnv () (fun _ => ()) sampleInfo).Yields messages ∧
      (∃! seed : UInt64, seed.toNat < 2 ^ (1 : UInt32).toNat ∧
        computeMask seed 1 = .ok (0x123456789abcdef0 ||| (maxU64 >>> (1 : UInt32).toUInt64))) ∧
      (∃! seed : ℕ, ∃ message : PullRequest sampleEnv,
        messages[seed]? = some message ∧ message.filter.Matches 0x123456789abcdef0) ∧
      ∃! k, k < 2 ^ (1 : UInt32).toNat ∧ ∃ message : PullRequest sampleEnv,
        rotatingMessage messages (pullRoundAfter maxU64 k) = some message ∧
          message.filter.Matches 0x123456789abcdef0 := by
  obtain ⟨hseed, hmessages, hrounds⟩ :=
    @pullRequests_cover Unit sampleEnv 1 (by decide) 0x123456789abcdef0
  have hcontact : contactMaskBits sampleEnv sampleInfo = some 1 := rfl
  obtain ⟨messages, hyields⟩ := exists_yields_createPullRequestMessages () (fun _ => ())
    (by decide) (List.cons_ne_nil _ _) hcontact fun _ => rfl
  exact ⟨messages, hyields, hseed, hmessages () (fun _ => ()) sampleInfo messages rfl hyields,
    hrounds (fun _ => messages) (fun _ => ⟨(), fun _ => (), sampleInfo, rfl, hyields⟩) maxU64⟩

end Sg32
