/-
How to reach a node (`contact_info.rs`).

A contact info lists addresses, and sockets by key; a socket names its address
by index and its port by the distance from the port of the socket before it.

* `socketByKey` — the socket of a key, unless a port overflows or an address is
  missing on the way;
* `gossipAddr` — the socket of key 0.
-/
import Sg32.Gossip.Protocol

namespace Sg32

inductive IpAddr
  | v4 (octets : Vector UInt8 4)
  | v6 (octets : Vector UInt8 16)
  deriving DecidableEq

structure SocketAddr where
  ip : IpAddr
  port : UInt16
  deriving DecidableEq

structure SocketEntry where
  key : UInt8
  index : UInt8
  offset : UInt16
  deriving DecidableEq

/-- `rest` stands for the fields that are only carried. -/
structure ContactInfo where
  pubkey : Pubkey
  wallclock : UInt64
  addrs : List IpAddr
  sockets : List SocketEntry
  rest : Bytes
  deriving DecidableEq

/-- `a.checked_add(b)`. -/
def checkedAddU16 (a b : UInt16) : Option UInt16 :=
  if a.toNat + b.toNat < 2 ^ 16 then some (a + b) else none

namespace ContactInfo

/-- The loop over the sockets, from the port reached so far. -/
def socketFrom (addrs : List IpAddr) (key : UInt8) : UInt16 → List SocketEntry → Option SocketAddr
  | _, [] => none
  | port, entry :: entries => do
    let port ← checkedAddU16 port entry.offset
    if entry.key = key then do
      let ip ← addrs[entry.index.toNat]?
      some { ip := ip, port := port }
    else socketFrom addrs key port entries

def socketByKey (info : ContactInfo) (key : UInt8) : Option SocketAddr :=
  socketFrom info.addrs key 0 info.sockets

def gossipAddr (info : ContactInfo) : Option SocketAddr := info.socketByKey 0

end ContactInfo

end Sg32
