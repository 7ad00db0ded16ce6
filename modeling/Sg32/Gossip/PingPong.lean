/-
Pings and pongs (`ping_pong.rs`, `keypair.rs`).

Who answers a ping signs a hash of the token in it; the answer shows that its
sender can receive at its address.

* `Pong.new_signed` — the signature of a pong verifies for its hash.
-/
import Sg32.Foundation.Codec
import Sg32.Gossip.ContactInfo
import Sg32.MerkleProver

namespace Sg32

open Bytes

/-- A packet and the address that it is sent to. -/
structure Datagram where
  dest : SocketAddr
  bytes : Bytes
  deriving DecidableEq

/-- A key pair: the public key, and how messages are signed. -/
structure SigningKey where
  verifyingKey : Pubkey
  sign : Bytes → Signature

/-- Signatures of the key verify under its public key. -/
def SigningKey.Verifies (verify : Pubkey → Bytes → Signature → Bool) (key : SigningKey) : Prop :=
  ∀ message, verify key.verifyingKey message (key.sign message) = true

structure Ping where
  «from» : Pubkey
  token : Vector UInt8 32
  signature : Signature
  deriving DecidableEq

structure Pong where
  «from» : Pubkey
  hash : Digest
  signature : Signature
  deriving DecidableEq

/-- `b"SOLANA_PING_PONG"`. -/
def pingPongPrefix : Bytes := "SOLANA_PING_PONG".toUTF8.toList

/-- `token` is what the random number generator returned. -/
def Ping.new (key : SigningKey) (token : Vector UInt8 32) : Ping where
  «from» := key.verifyingKey
  token := token
  signature := key.sign token.toList

def Pong.new (sha256 : Bytes → Digest) (ping : Ping) (key : SigningKey) : Pong :=
  let hash := sha256 (pingPongPrefix ++ ping.token.toList)
  { «from» := key.verifyingKey, hash := hash, signature := key.sign hash.toList }

/-- The fields of a ping, in order. -/
def Ping.codec : Codec Ping :=
  ((Codec.array 32).pair ((Codec.array 32).pair (Codec.array 64))).map {
    toFun := fun p => { «from» := p.1, token := p.2.1, signature := p.2.2 }
    invFun := fun ping => (ping.from, ping.token, ping.signature)
    left_inv := fun _ => rfl
    right_inv := fun _ => rfl }

/-- The fields of a pong, in order. -/
def Pong.codec : Codec Pong :=
  ((Codec.array 32).pair ((Codec.array 32).pair (Codec.array 64))).map {
    toFun := fun p => { «from» := p.1, hash := p.2.1, signature := p.2.2 }
    invFun := fun pong => (pong.from, pong.hash, pong.signature)
    left_inv := fun _ => rfl
    right_inv := fun _ => rfl }

@[simp] theorem Ping.valid_codec (ping : Ping) : Ping.codec.Valid ping :=
  Codec.valid_map.mpr ⟨Codec.valid_array _, Codec.valid_array _, Codec.valid_array _⟩

@[simp] theorem Pong.valid_codec (pong : Pong) : Pong.codec.Valid pong :=
  Codec.valid_map.mpr ⟨Codec.valid_array _, Codec.valid_array _, Codec.valid_array _⟩

theorem Pong.new_signed {verify : Pubkey → Bytes → Signature → Bool} {key : SigningKey}
    (sha256 : Bytes → Digest) (ping : Ping) (h : key.Verifies verify) :
    verify (Pong.new sha256 ping key).from (Pong.new sha256 ping key).hash.toList
      (Pong.new sha256 ping key).signature = true :=
  h (sha256 (pingPongPrefix ++ ping.token.toList)).toList

end Sg32
