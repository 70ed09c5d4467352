/-
  Kademlia/Peer.lean
  ==================
  **Peers and their liveness.**

  A peer is a node together with what we know of its behaviour: when it last
  replied, when it was last queried, and how many queries it has left
  unanswered.  Whether it is any good is not stored.  `Peer.status` derives it
  from those three whenever a decision hangs on it:

    * a peer that has replied, and that replied or was queried within the
      respite, is good;
    * a peer that has replied and been quiet for longer is questionable;
    * a peer that has never replied is unknown;
    * and once enough queries are unanswered, a peer that is not good is bad.

  Times are nanoseconds since the epoch and may lie in any order: a time in the
  future counts as recent.
-/
import Kademlia.Contact

namespace Kademlia

/-- A point in time, in nanoseconds since the epoch. -/
abbrev Time := Int

/-- The nanoseconds of a minute. -/
def minute : Int := 60000000000

/-- How long a reply or a query keeps a peer good: fifteen minutes. -/
def respite : Int := 15 * minute

/-- The number of unanswered queries that makes a peer bad. -/
def maxPending : UInt8 := 2

/-- The liveness of a peer. -/
inductive Status where
  | unknown
  | good
  | questionable
  | bad
deriving DecidableEq, Repr

/-- A node and what is known of its behaviour. -/
@[ext]
structure Peer where
  id : NodeId
  address : Address
  lastReply : Option Time
  lastQuery : Option Time
  pending : UInt8
deriving DecidableEq, Repr

namespace Peer

/-! ### Construction -/

/-- A peer that has never been contacted. -/
def new (id : NodeId) (address : Address) : Peer :=
  ⟨id, address, none, none, 0⟩

/-- The peer that a contact describes, never contacted. -/
def ofContact (c : Contact) : Peer :=
  new c.id (.v4 c.endpoint)

/-- The contact that describes a peer; a peer at an IPv6 address has none. -/
def contact? (p : Peer) : Option Contact :=
  match p.address with
  | .v4 endpoint => some ⟨p.id, endpoint⟩
  | .v6 _ _ _ _ => none

/-! ### Records of what happened -/

def setAddress (p : Peer) (address : Address) : Peer :=
  { p with address := address }

@[simp] theorem setAddress_id (p : Peer) (a : Address) : (p.setAddress a).id = p.id := rfl
@[simp] theorem setAddress_address (p : Peer) (a : Address) : (p.setAddress a).address = a := rfl
@[simp] theorem setAddress_lastReply (p : Peer) (a : Address) :
    (p.setAddress a).lastReply = p.lastReply := rfl
@[simp] theorem setAddress_lastQuery (p : Peer) (a : Address) :
    (p.setAddress a).lastQuery = p.lastQuery := rfl
@[simp] theorem setAddress_pending (p : Peer) (a : Address) :
    (p.setAddress a).pending = p.pending := rfl

/-- Records a reply, which answers every query so far. -/
def markReply (p : Peer) (now : Time) : Peer :=
  { p with lastReply := some now, pending := 0 }

@[simp] theorem markReply_id (p : Peer) (now : Time) : (p.markReply now).id = p.id := rfl
@[simp] theorem markReply_address (p : Peer) (now : Time) :
    (p.markReply now).address = p.address := rfl
@[simp] theorem markReply_lastReply (p : Peer) (now : Time) :
    (p.markReply now).lastReply = some now := rfl
@[simp] theorem markReply_lastQuery (p : Peer) (now : Time) :
    (p.markReply now).lastQuery = p.lastQuery := rfl
@[simp] theorem markReply_pending (p : Peer) (now : Time) : (p.markReply now).pending = 0 := rfl

/-- Records a query.  The count of unanswered ones stays at the greatest byte
    once it is there. -/
def markQuery (p : Peer) (now : Time) : Peer :=
  { p with
    lastQuery := some now
    pending := if p.pending = 255 then 255 else p.pending + 1 }

@[simp] theorem markQuery_id (p : Peer) (now : Time) : (p.markQuery now).id = p.id := rfl
@[simp] theorem markQuery_address (p : Peer) (now : Time) :
    (p.markQuery now).address = p.address := rfl
@[simp] theorem markQuery_lastReply (p : Peer) (now : Time) :
    (p.markQuery now).lastReply = p.lastReply := rfl
@[simp] theorem markQuery_lastQuery (p : Peer) (now : Time) :
    (p.markQuery now).lastQuery = some now := rfl

/-! ### Liveness -/

/-- The earlier of the last reply and the last query.  A peer that lacks one of
    them has no activity, which counts as earlier than any time. -/
def lastActivity (p : Peer) : Option Time :=
  match p.lastReply, p.lastQuery with
  | some reply, some query => some (min reply query)
  | _, _ => none

/-- Whether a time is less than the respite before `now`. -/
def recent (now : Time) : Option Time → Bool
  | some t => now - t < respite
  | none => false

def status (p : Peer) (now : Time) : Status :=
  match p.lastReply with
  | some reply =>
    if recent now (some reply) || recent now p.lastQuery then .good
    else if p.pending < maxPending then .questionable
    else .bad
  | none => if p.pending < maxPending then .unknown else .bad

end Peer

end Kademlia
