/-
  Kademlia/Table.lean
  ===================
  **Routing tables.**

  A routing table arranges the peers that a node knows by how many leading bits
  they share with the local identifier.  It begins with one bucket that covers
  everything.  Only the last bucket is ever split: it is the catch-all for every
  peer that shares at least its index many bits, while each bucket before it holds
  the peers that share exactly its index many.  Buckets are added and never
  merged, so a table always has at least one.

  This file holds the table and its views; the files beside it hold what changes
  it.  Operations that report events answer with an `Update`.
-/
import Kademlia.Bucket
import Kademlia.Distance
import Kademlia.Event

namespace Kademlia

/-- The greatest number of buckets, one for each number of shared bits. -/
def maxBuckets : Nat := 160

/-- The peers that a node knows, in buckets by the number of leading bits they
    share with the local identifier. -/
@[ext]
structure Table where
  localId : NodeId
  buckets : List Bucket
  buckets_ne_nil : buckets ≠ []
deriving DecidableEq, Repr

namespace Table

/-- The answer of an operation, the table after it, and the events on the way. -/
structure Update (α : Type) where
  answer : α
  table : Table
  events : List Event

def new (localId : NodeId) : Table :=
  ⟨localId, [Bucket.empty 0], by simp⟩

/-! ### Views -/

def bucketCount (t : Table) : Nat :=
  t.buckets.length

def bucket? (t : Table) (i : Nat) : Option Bucket :=
  t.buckets[i]?

/-- The catch-all. -/
def last (t : Table) : Bucket :=
  t.buckets.getLast t.buckets_ne_nil

/-- Every peer, in the order of buckets and of slots within them. -/
def peers (t : Table) : List Peer :=
  t.buckets.flatMap Bucket.peers

/-- The number of peers that the buckets count. -/
def size (t : Table) : Nat :=
  t.buckets.foldr (fun b total => b.size + total) 0

def isEmpty (t : Table) : Bool :=
  t.buckets.all Bucket.isEmpty

/-! ### The bucket of an identifier -/

/-- The index of the bucket responsible for an identifier: the number of leading
    bits it shares with the local one, or the last index if that is less. -/
def findBucket (t : Table) (id : NodeId) : Nat :=
  min (t.localId.sharedBits id) (t.bucketCount - 1)

theorem findBucket_lt (t : Table) (id : NodeId) : t.findBucket id < t.buckets.length := by
  have h := List.length_pos_iff.mpr t.buckets_ne_nil
  simp only [findBucket, bucketCount]
  omega

/-- The bucket responsible for an identifier. -/
def home (t : Table) (id : NodeId) : Bucket :=
  have := t.findBucket_lt id
  t.buckets[t.findBucket id]

/-- Puts a bucket in the place of the one at an index. -/
def setBucket (t : Table) (i : Nat) (b : Bucket) : Table :=
  { t with
    buckets := t.buckets.set i b
    buckets_ne_nil := by simp [t.buckets_ne_nil] }

end Table

end Kademlia
