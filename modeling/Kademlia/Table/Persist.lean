/-
  Kademlia/Table/Persist.lean
  ===========================
  **Tables made from what other tables hold.**

  A snapshot keeps what identifies a peer and where it is reached, but nothing of
  its liveness, so that the peers of a restored table have never been contacted.
  A seeded table is the working set of a lookup: it starts out with copies of the
  peers closest to the target, their records included.
-/
import Kademlia.Table.Insert
import Kademlia.Table.Closest

namespace Kademlia.Table

/-- The contacts of every peer that has one, in the order of the peers. -/
def snapshot (t : Table) : List Contact :=
  t.peers.filterMap Peer.contact?

/-- The table that takes in the contacts of a snapshot, those that fit. -/
def restore (localId : NodeId) (contacts : List Contact) (clock : Nat → Time) :
    Update (List Outcome) :=
  (new localId).insertAll clock (contacts.map Peer.ofContact)

/-- The table for a lookup of `target` that starts with the peers of another table
    closest to it. -/
def seed (localId : NodeId) (source : Table) (target : NodeId) (clock : Nat → Time) :
    Update (List Outcome) :=
  (new localId).insertAll clock (source.gatherClosest target)

end Kademlia.Table
