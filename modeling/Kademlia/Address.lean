/-
  Kademlia/Address.lean
  =====================
  **Where a node can be reached.**

  A peer is known at an IPv4 or an IPv6 address.  The formats in which contacts
  are exchanged and stored have room for IPv4 alone, so the IPv4 case has a type
  of its own, `Endpoint`.  An IPv6 address that embeds an IPv4 one remains an
  IPv6 address, and two that differ in their flow information or their scope are
  different.
-/
import Kademlia.Bytes

namespace Kademlia

/-- The octets of an IPv4 address that is given as one word, high byte first. -/
def octets (word : UInt32) : Bytes 4 :=
  ⟨[UInt8.ofNat (word.toNat / 16777216), UInt8.ofNat (word.toNat / 65536),
    UInt8.ofNat (word.toNat / 256), UInt8.ofNat word.toNat], rfl⟩

/-- An IPv4 address and a port. -/
@[ext]
structure Endpoint where
  ip : Bytes 4
  port : UInt16
deriving DecidableEq, Repr

/-- The address at which a peer is known. -/
inductive Address where
  | v4 (endpoint : Endpoint)
  | v6 (ip : Bytes 16) (port : UInt16) (flowInfo scope : UInt32)
deriving DecidableEq, Repr

end Kademlia
