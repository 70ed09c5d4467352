/-
  Kademlia/ClosestSet.lean
  ========================
  **The peers closest to a target.**

  A closest-set keeps the nearest of the peers that it is offered, up to its
  capacity, in order of their distance from the target.  Of peers at the same
  distance those offered earlier come first, so a late peer never displaces an
  equally close one.

  Room is reserved when a set is made: for as many entries as it may hold, and for the
  one more that it has before the farthest is dropped.  `withCapacity` is the set, and
  `withCapacity?` also reports a capacity for which there can be no room on a machine of
  64 bits that checks its arithmetic.  Whether there is that much memory at the time is
  another matter, and left open.
-/
import Kademlia.Distance
import Kademlia.Bucket

namespace Kademlia

/-- A selected peer with its distance from the target. -/
structure ClosestEntry where
  peer : Peer
  distance : Distance
deriving DecidableEq, Repr

/-- The peers closest to a target among those offered so far, closest first. -/
@[ext]
structure ClosestSet where
  target : NodeId
  capacity : Nat
  entries : List ClosestEntry
deriving DecidableEq, Repr

/-! ### Room for entries -/

/-- The count of numbers that a machine word of 64 bits can hold. -/
def wordCount : Nat := 18446744073709551616 -- 2^64

/-- The greatest number of bytes that can be reserved at once, the greatest signed
    word. -/
def reservableBytes : Nat := 9223372036854775807 -- 2^63 - 1

/-- The bytes of an entry as it is held in memory: the 20 of its distance and the 8 of
    a reference to its peer, filled up to a multiple of 8. -/
def entryBytes : Nat := 32

/-- The ways in which room for entries cannot be reserved: their number is no machine
    word, or they have too many bytes. -/
inductive CapacityError where
  | count (entries : Nat)
  | bytes (entries : Nat)
deriving DecidableEq, Repr

def CapacityError.message : CapacityError → String
  | .count _ => "attempt to add with overflow"
  | .bytes _ => "capacity overflow"

namespace ClosestSet

/-! ### Construction -/

def withCapacity (target : NodeId) (capacity : Nat) : ClosestSet :=
  ⟨target, capacity, []⟩

/-- The empty set of the given capacity, or the error that there is no room for its
    entries and one more. -/
def withCapacity? (target : NodeId) (capacity : Nat) : Except CapacityError ClosestSet :=
  let entries := capacity + 1
  if wordCount ≤ entries then .error (.count entries)
  else if reservableBytes < entries * entryBytes then .error (.bytes entries)
  else .ok (withCapacity target capacity)

/-- An empty set that keeps as many peers as fit into a bucket. -/
def new (target : NodeId) : ClosestSet :=
  withCapacity target bucketCapacity

/-! ### Views -/

def size (s : ClosestSet) : Nat :=
  s.entries.length

def isEmpty (s : ClosestSet) : Bool :=
  s.entries.isEmpty

def isFull (s : ClosestSet) : Bool :=
  s.capacity ≤ s.size

def farthest? (s : ClosestSet) : Option Distance :=
  s.entries.getLast?.map ClosestEntry.distance

def peers (s : ClosestSet) : List Peer :=
  s.entries.map ClosestEntry.peer

/-! ### Offers -/

/-- Offers a peer and tells whether it was selected.  Its place is behind every
    entry that is no farther away; if that is past the capacity the peer is
    refused, and otherwise the farthest entry makes room for it. -/
def offer (s : ClosestSet) (peer : Peer) : Bool × ClosestSet :=
  let distance := peer.id.distance s.target
  let nearer := s.entries.takeWhile (·.distance ≤ distance)
  let farther := s.entries.dropWhile (·.distance ≤ distance)
  if s.capacity ≤ nearer.length then
    (false, s)
  else
    (true, { s with entries := (nearer ++ ⟨peer, distance⟩ :: farther).take s.capacity })

def extend (s : ClosestSet) (peers : List Peer) : ClosestSet :=
  peers.foldl (fun s peer => (s.offer peer).2) s

end ClosestSet

end Kademlia
