/-
The repair protocol (`repair.rs`).

A request names the validator, a slot and a shred; it is signed, and the
signature is put over a placeholder.  A response is a ping, or a shred with
the nonce behind it.

* `decodeAll_repairRequest`, `signed_sentRequest` — a request is read back, and
  its signature verifies;
* `parseResponse_eq_ping_iff`, `parseResponse_eq_shred_iff` — exactly which
  packets are pings, and which are taken for shreds.
-/
import Sg32.Gossip.PingPong
import Sg32.ShredHeader

namespace Sg32

open Bytes

/-- The variant of a request for one shred of a slot. -/
def ENUM_TAG_WINDOW_INDEX : UInt32 := 8

def SIG_BYTES : ℕ := 64

def PING_BYTES : ℕ := 4 + 32 + 32 + 64

inductive Response
  | shred (bytes : Bytes) (nonce : UInt32)
  | ping (token : Vector UInt8 32) (pubkey : Pubkey)
  deriving DecidableEq

/-! ### Requests -/

/-- A random nonce, and the clock: the milliseconds since the epoch, unless the
clock stands before it. -/
structure RequestEnv where
  nonce : UInt32
  timestamp : Option UInt64

/-- `&buf[..4] ++ &buf[4 + SIG_BYTES..]`, which the signature covers. -/
def signable (buf : Bytes) : Bytes := buf.take 4 ++ buf.drop (4 + SIG_BYTES)

/-- `buf[a..a + bytes.len()].copy_from_slice(bytes)`. -/
def copyAt (buf : Bytes) (a : ℕ) (bytes : Bytes) : Bytes :=
  buf.take a ++ (bytes ++ buf.drop (a + bytes.length))

/-- The fields of a request before it is signed; the signature is zero. -/
def requestBuf (our_key : SigningKey) (validator_pub : Pubkey) (timestamp : UInt64)
    (nonce : UInt32) (slot shred_idx : UInt64) : Bytes :=
  le32 ENUM_TAG_WINDOW_INDEX ++ (List.replicate SIG_BYTES 0 ++
    (our_key.verifyingKey.toList ++ (validator_pub.toList ++ (le64 timestamp ++ (le32 nonce ++
      (le64 slot ++ le64 shred_idx))))))

/-- The bytes of a request. -/
def repairRequest (our_key : SigningKey) (validator_pub : Pubkey) (timestamp : UInt64)
    (nonce : UInt32) (slot shred_idx : UInt64) : Bytes :=
  let buf := requestBuf our_key validator_pub timestamp nonce slot shred_idx
  copyAt buf 4 (our_key.sign (signable buf)).toList

/-- The nonce, and the packet handed to the socket; `none` is an error of the
clock. -/
def sendRepairRequest (dest : SocketAddr) (our_key : SigningKey) (validator_pub : Pubkey)
    (slot shred_idx : UInt64) (env : RequestEnv) : Option (UInt32 × Datagram) := do
  let timestamp ← env.timestamp
  let bytes := repairRequest our_key validator_pub timestamp env.nonce slot shred_idx
  some (env.nonce, { dest := dest, bytes := bytes })

/-! ### Responses -/

def parseRepairResponse (packet : Bytes) : Option (Bytes × UInt32) :=
  if packet.length < 5 then none
  else
    let (shred_bytes, nonce_bytes) := packet.splitAt (packet.length - 4)
    some (shred_bytes, .ofNat (leNat nonce_bytes))

def parseResponse (packet : Bytes) : Option Response :=
  if packet.length = PING_BYTES ∧ packet.take 4 = [0, 0, 0, 0] then do
    let pubkey ← readArr 32 packet 4
    let token ← readArr 32 packet 36
    some (.ping token pubkey)
  else if packet.length < 5 then none
  else
    let (shred_bytes, nonce_bytes) := packet.splitAt (packet.length - 4)
    some (.shred shred_bytes (.ofNat (leNat nonce_bytes)))

/-- `7` is the tag of a pong. -/
def buildPong (sha256 : Bytes → Digest) (token : Vector UInt8 32) (our_key : SigningKey) : Bytes :=
  let hash := sha256 (pingPongPrefix ++ token.toList)
  le32 7 ++ (our_key.verifyingKey.toList ++ (hash.toList ++ (our_key.sign hash.toList).toList))

/-! ### What a request says -/

/-- A request for one shred, as a validator reads it. -/
structure WindowIndex where
  signature : Signature
  sender : Pubkey
  recipient : Pubkey
  timestamp : UInt64
  nonce : UInt32
  slot : UInt64
  shred_index : UInt64
  deriving DecidableEq

namespace WindowIndex

/-- The tag, and the fields in order. -/
def codec : Codec WindowIndex :=
  .prefixed (le32 ENUM_TAG_WINDOW_INDEX) <|
    ((Codec.array 64).pair <| (Codec.array 32).pair <| (Codec.array 32).pair <| Codec.u64.pair <|
      Codec.u32.pair <| Codec.u64.pair Codec.u64).map {
    toFun := fun (signature, sender, recipient, timestamp, nonce, slot, shred_index) =>
      { signature, sender, recipient, timestamp, nonce, slot, shred_index }
    invFun := fun r =>
      (r.signature, r.sender, r.recipient, r.timestamp, r.nonce, r.slot, r.shred_index)
    left_inv := fun _ => rfl
    right_inv := fun _ => rfl }

@[simp] theorem valid_codec (request : WindowIndex) : codec.Valid request := by
  rw [codec, Codec.valid_prefixed, Codec.valid_map]
  exact ⟨Codec.valid_array _, Codec.valid_array _, Codec.valid_array _, Codec.valid_u64 _,
    Codec.valid_u32 _, Codec.valid_u64 _, Codec.valid_u64 _⟩

theorem encode_codec (request : WindowIndex) : codec.encode request =
    le32 ENUM_TAG_WINDOW_INDEX ++ (request.signature.toList ++ (request.sender.toList ++
      (request.recipient.toList ++ (le64 request.timestamp ++ (le32 request.nonce ++
        (le64 request.slot ++ le64 request.shred_index)))))) := rfl

/-- The request is signed by its sender. -/
def Signed (verify : Pubkey → Bytes → Signature → Bool) (request : WindowIndex) : Prop :=
  verify request.sender (signable (codec.encode request)) request.signature = true

end WindowIndex

section Requests

variable (our_key : SigningKey) (validator_pub : Pubkey) (timestamp : UInt64) (nonce : UInt32)
  (slot shred_idx : UInt64)

/-- The request that is sent, as a validator reads it. -/
def sentRequest : WindowIndex where
  signature :=
    our_key.sign (signable (requestBuf our_key validator_pub timestamp nonce slot shred_idx))
  sender := our_key.verifyingKey
  recipient := validator_pub
  timestamp := timestamp
  nonce := nonce
  slot := slot
  shred_index := shred_idx

/-- The packet is the encoding of the request. -/
theorem repairRequest_eq : repairRequest our_key validator_pub timestamp nonce slot shred_idx =
    WindowIndex.codec.encode
      (sentRequest our_key validator_pub timestamp nonce slot shred_idx) := by
  rw [WindowIndex.encode_codec, repairRequest, sentRequest]
  generalize our_key.sign _ = signature
  simp [copyAt, requestBuf, SIG_BYTES, List.drop_append]

theorem length_repairRequest :
    (repairRequest our_key validator_pub timestamp nonce slot shred_idx).length = 160 := by
  rw [repairRequest_eq, WindowIndex.encode_codec]
  simp

/-- **A request is read back**, and its signature verifies. -/
theorem decodeAll_repairRequest :
    WindowIndex.codec.decodeAll (repairRequest our_key validator_pub timestamp nonce slot
      shred_idx) = some (sentRequest our_key validator_pub timestamp nonce slot shred_idx) :=
  Codec.decodeAll_eq_some_iff.mpr ⟨WindowIndex.valid_codec _, repairRequest_eq ..⟩

end Requests

/-! ### What a response is taken for -/

/-- A ping, as a packet of the repair protocol. -/
def pingPacket : Codec Ping := .prefixed (le32 0) Ping.codec

theorem length_buildPong (sha256 : Bytes → Digest) (token : Vector UInt8 32)
    (our_key : SigningKey) : (buildPong sha256 token our_key).length = PING_BYTES := by
  simp [buildPong, PING_BYTES]

variable {packet : Bytes}

/-- The packet has the form of a ping. -/
abbrev IsPing (packet : Bytes) : Prop :=
  packet.length = PING_BYTES ∧ packet.take 4 = [0, 0, 0, 0]

theorem length_pingPacket (ping : Ping) : (pingPacket.encode ping).length = PING_BYTES := by
  show (le32 0 ++ (ping.from.toList ++ (ping.token.toList ++ ping.signature.toList))).length = _
  simp [PING_BYTES]

/-- **Packets of the form of a ping are the encodings of pings.** -/
theorem isPing_iff : IsPing packet ↔ ∃ ping, packet = pingPacket.encode ping := by
  constructor
  · rintro ⟨hlen, htag⟩
    have hsplit := List.take_append_drop 4 packet
    rw [htag] at hsplit
    have hrest : (packet.drop 4).length = 128 := by
      rw [List.length_drop, hlen]
      rfl
    -- the fields fill the packet
    obtain ⟨pubkey, rest, hpubkey⟩ :=
      Codec.exists_array_append (by omega : 32 ≤ (packet.drop 4).length)
    rw [hpubkey, List.length_append, Vector.length_toList] at hrest
    obtain ⟨token, rest, rfl⟩ := Codec.exists_array_append (by omega : 32 ≤ rest.length)
    rw [List.length_append, Vector.length_toList] at hrest
    obtain ⟨signature, rest, rfl⟩ := Codec.exists_array_append (by omega : 64 ≤ rest.length)
    rw [List.length_append, Vector.length_toList] at hrest
    obtain rfl : rest = [] := List.eq_nil_of_length_eq_zero (by omega)
    refine ⟨⟨pubkey, token, signature⟩, ?_⟩
    rw [← hsplit, hpubkey, List.append_nil]
    rfl
  · rintro ⟨ping, rfl⟩
    exact ⟨length_pingPacket ping, rfl⟩

theorem parseResponse_pingPacket (ping : Ping) :
    parseResponse (pingPacket.encode ping) = some (.ping ping.token ping.from) := by
  have hping : IsPing (pingPacket.encode ping) := isPing_iff.mpr ⟨ping, rfl⟩
  have hpubkey : readArr 32 (pingPacket.encode ping) 4 = some ping.from :=
    getArr_append (le32 0) _ rfl
  have htoken : readArr 32 (pingPacket.encode ping) 36 = some ping.token := by
    have hsplit : pingPacket.encode ping = (le32 0 ++ ping.from.toList) ++
        (ping.token.toList ++ ping.signature.toList) := by
      rw [List.append_assoc]
      rfl
    rw [hsplit]
    exact getArr_append (le32 0 ++ ping.from.toList) ping.signature.toList (by simp)
  rw [parseResponse, if_pos hping, hpubkey, htoken]
  rfl

/-- Anything else that has five bytes is taken for a shred and its nonce. -/
theorem parseResponse_of_not_isPing (hping : ¬ IsPing packet) : parseResponse packet =
    (parseRepairResponse packet).map fun r => .shred r.1 r.2 := by
  rw [parseResponse, if_neg hping, parseRepairResponse]
  split_ifs <;> rfl

theorem parseRepairResponse_eq_some_iff {bytes : Bytes} {nonce : UInt32} :
    parseRepairResponse packet = some (bytes, nonce) ↔
      packet = bytes ++ le32 nonce ∧ bytes ≠ [] := by
  rw [parseRepairResponse]
  split_ifs with hlen
  · constructor
    · intro h
      cases h
    · rintro ⟨rfl, hne⟩
      have hpos := List.length_pos_of_ne_nil hne
      rw [List.length_append, length_le32] at hlen
      omega
  · simp only [List.splitAt_eq, Option.some.injEq, Prod.mk.injEq]
    constructor
    · rintro ⟨rfl, rfl⟩
      have hnonce : (packet.drop (packet.length - 4)).length = 4 := by
        rw [List.length_drop]
        omega
      refine ⟨?_, ?_⟩
      · rw [le32_ofNat_leNat hnonce, List.take_append_drop]
      · intro hnil
        have := congrArg List.length hnil
        rw [List.length_take, List.length_nil] at this
        omega
    · rintro ⟨rfl, -⟩
      rw [List.length_append, length_le32, Nat.add_sub_cancel, List.take_left, List.drop_left,
        leNat_le32, UInt32.ofNat_toNat]
      exact ⟨rfl, rfl⟩

/-- **Exactly which packets are pings**; nothing looks at their signatures. -/
theorem parseResponse_eq_ping_iff {token : Vector UInt8 32} {pubkey : Pubkey} :
    parseResponse packet = some (.ping token pubkey) ↔
      ∃ signature, packet = pingPacket.encode ⟨pubkey, token, signature⟩ := by
  by_cases hping : IsPing packet
  · obtain ⟨ping, rfl⟩ := isPing_iff.mp hping
    rw [parseResponse_pingPacket, Option.some.injEq, Response.ping.injEq]
    constructor
    · rintro ⟨rfl, rfl⟩
      exact ⟨ping.signature, rfl⟩
    · rintro ⟨signature, h⟩
      obtain rfl := Codec.encode_inj (by simp [pingPacket, Codec.valid_prefixed])
        (by simp [pingPacket, Codec.valid_prefixed]) h
      exact ⟨rfl, rfl⟩
  · rw [parseResponse_of_not_isPing hping]
    constructor
    · intro h
      obtain ⟨r, -, hr⟩ := Option.map_eq_some_iff.mp h
      cases hr
    · rintro ⟨signature, rfl⟩
      exact absurd (isPing_iff.mpr ⟨_, rfl⟩) hping

/-- **Exactly which packets are taken for shreds**, with which nonce. -/
theorem parseResponse_eq_shred_iff {bytes : Bytes} {nonce : UInt32} :
    parseResponse packet = some (.shred bytes nonce) ↔
      ¬ IsPing packet ∧ packet = bytes ++ le32 nonce ∧ bytes ≠ [] := by
  by_cases hping : IsPing packet
  · obtain ⟨ping, rfl⟩ := isPing_iff.mp hping
    rw [parseResponse_pingPacket]
    simp [hping]
  · rw [parseResponse_of_not_isPing hping, ← parseRepairResponse_eq_some_iff,
      Option.map_eq_some_iff]
    simp [hping]

end Sg32
