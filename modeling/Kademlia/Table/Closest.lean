/-
  Kademlia/Table/Closest.lean
  ===========================
  **The peers of a table that are closest to a target.**
-/
import Kademlia.Table
import Kademlia.ClosestSet

namespace Kademlia.Table

/-- Up to eight peers of the table, closest to the target first. -/
def gatherClosest (t : Table) (target : NodeId) : List Peer :=
  ((ClosestSet.new target).extend t.peers).peers

end Kademlia.Table
