/-
  Kademlia/Table/Insert.lean
  ==========================
  **Insertion, and the splitting of the catch-all.**

  A peer with the local identifier is refused, and one whose identifier is there
  already changes nothing.  Otherwise the peer goes to the bucket responsible for
  it.  If that bucket is full, a bad peer is displaced; failing that, the least
  recently active questionable one; failing that, the catch-all is split, provided
  that the peer or one of the occupants belongs deeper than the catch-all reaches.
  After a split the insertion is tried once more, and only once.
-/
import Kademlia.Table

namespace Kademlia

/-- The outcome of an insertion. -/
inductive Outcome where
  /-- The peer has the local identifier and was refused. -/
  | selfEntry
  /-- A peer with the same identifier is in the table; nothing changed. -/
  | alreadyPresent
  /-- The peer is new in the bucket with this index. -/
  | added (bucket : Nat)
  /-- The peer took the slot of another one in the bucket with this index. -/
  | replaced (bucket : Nat) (evicted : Peer)
  /-- There was no room for the peer. -/
  | full
deriving DecidableEq, Repr

namespace Table

/-! ### Splitting -/

/-- Whether a split can make room in the bucket at index `i`: it is the last one,
    the table can grow, and the candidate or an occupant shares more than `i` bits
    with the local identifier. -/
def canSplit (t : Table) (i : Nat) (candidate : NodeId) : Bool :=
  decide (i + 1 = t.bucketCount) && decide (t.bucketCount < maxBuckets) &&
    (decide (i < t.localId.sharedBits candidate) ||
      t.last.peers.any fun p => decide (i < t.localId.sharedBits p.id))

/-- Appends a bucket, and moves every peer of the previous last one that belongs
    there.  The answer is the number of peers moved. -/
def splitLast (t : Table) (now : Time) : Update Nat :=
  let old := t.bucketCount - 1
  let migration :=
    t.last.migrate (Bucket.empty (old + 1)) (fun p => old < t.localId.sharedBits p.id) now
  { answer := migration.moved
    table :=
      { t with
        buckets := t.buckets.dropLast ++ [migration.source, migration.dest]
        buckets_ne_nil := by simp }
    events := [.splitBucket old migration.moved] }

/-! ### Insertion -/

/-- Adds a peer to the bucket responsible for it after a split. -/
def addAfterSplit (t : Table) (peer : Peer) (now : Time) : Update Outcome :=
  let split := t.splitLast now
  let i := split.table.findBucket peer.id
  match (split.table.home peer.id).add peer now with
  | .ok b => ⟨.added i, split.table.setBucket i b, split.events⟩
  | .error _ => ⟨.full, split.table, split.events ++ [.stillFullAfterSplit i]⟩

/-- Makes room for a peer in the full bucket at index `i`. -/
def insertIntoFull (t : Table) (i : Nat) (b : Bucket) (peer : Peer) (now : Time) :
    Update Outcome :=
  match b.replaceBad peer now with
  | .ok (evicted, b') => ⟨.replaced i evicted, t.setBucket i b', [.replacingPeer b.index peer.id]⟩
  | .error peer =>
    match b.replaceQuestionable peer now with
    | .ok (evicted, b') =>
      ⟨.replaced i evicted, t.setBucket i b', [.replacingPeer b.index peer.id]⟩
    | .error peer =>
      if t.canSplit i peer.id then t.addAfterSplit peer now
      else ⟨.full, t, [.bucketFull i peer.id]⟩

/-- Inserts a peer, judging the liveness of the others at `now`. -/
def insert (t : Table) (peer : Peer) (now : Time) : Update Outcome :=
  let i := t.findBucket peer.id
  let b := t.home peer.id
  if peer.id = t.localId then ⟨.selfEntry, t, []⟩
  else if b.contains peer.id then ⟨.alreadyPresent, t, []⟩
  else if b.isFull then t.insertIntoFull i b peer now
  else
    match b.add peer now with
    | .ok b' => ⟨.added i, t.setBucket i b', []⟩
    | .error _ => ⟨.full, t, []⟩

/-- Inserts the peers of a list in order.  The n-th insertion happens at the n-th
    reading of the clock, and the outcomes are in the order of the peers. -/
def insertAll (t : Table) (clock : Nat → Time) : List Peer → Update (List Outcome)
  | [] => ⟨[], t, []⟩
  | peer :: rest =>
    let first := t.insert peer (clock 0)
    let others := first.table.insertAll (fun n => clock (n + 1)) rest
    ⟨first.answer :: others.answer, others.table, first.events ++ others.events⟩

end Table

end Kademlia
