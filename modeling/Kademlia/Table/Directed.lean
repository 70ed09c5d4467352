/-
  Kademlia/Table/Directed.lean
  ============================
  **Operations on the peer with a given identifier.**

  An identifier determines the bucket in which its peer must be, so nothing but
  that bucket is searched or changed.  A reply from a peer that is not there, or a
  query to one, changes nothing and is reported as an event.
-/
import Kademlia.Table

namespace Kademlia.Table

def find? (t : Table) (id : NodeId) : Option Peer :=
  (t.home id).get? id

def contains (t : Table) (id : NodeId) : Bool :=
  (t.find? id).isSome

/-- Edits the peer with an identifier, and gives the peer as it is afterwards. -/
def edit? (t : Table) (id : NodeId) (f : Peer → Peer) : Option (Peer × Table) :=
  ((t.home id).edit? id f).map fun (p, b) => (p, t.setBucket (t.findBucket id) b)

/-- Removes the peer with an identifier, and gives it.  The buckets stay. -/
def remove? (t : Table) (id : NodeId) : Option (Peer × Table) :=
  ((t.home id).remove? id).map fun (p, b) => (p, t.setBucket (t.findBucket id) b)

/-- Records a reply, and tells whether the table holds the peer it came from. -/
def markReply (t : Table) (id : NodeId) (now : Time) : Update Bool :=
  match t.edit? id (·.markReply now) with
  | some (_, t) => ⟨true, t, []⟩
  | none => ⟨false, t, [.replyFromUnknown id]⟩

/-- Records a query, and tells whether the table holds the peer it went to. -/
def markQuery (t : Table) (id : NodeId) (now : Time) : Update Bool :=
  match t.edit? id (·.markQuery now) with
  | some (_, t) => ⟨true, t, []⟩
  | none => ⟨false, t, [.queryToUnknown id]⟩

end Kademlia.Table
