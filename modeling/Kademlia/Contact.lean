/-
  Kademlia/Contact.lean
  =====================
  **What nodes tell each other about a node.**

  A contact is an identifier and the IPv4 endpoint at which its node can be
  reached.  It carries nothing about liveness: that is the business of whoever
  talks to the node.
-/
import Kademlia.NodeId
import Kademlia.Address

namespace Kademlia

/-- An identifier and the IPv4 endpoint of the node that bears it. -/
@[ext]
structure Contact where
  id : NodeId
  endpoint : Endpoint
deriving DecidableEq, Repr

end Kademlia
