/-
  Kademlia/Table/Refresh.lean
  ===========================
  **Identifiers with which to refresh a bucket.**

  Looking up a random identifier for which a bucket is responsible refreshes the
  bucket.  For the last bucket those are the identifiers that share at least its
  index many bits with the local one.  For every other one they share exactly its
  index many: the next bit differs.
-/
import Kademlia.Table
import Kademlia.NodeId.LeadingBits

namespace Kademlia.Table

/-- The identifier that falls into the bucket at index `i` and takes the bits that
    this leaves open from those drawn. -/
def randomId? (t : Table) (i : Nat) (drawn : NodeId) : Option NodeId :=
  if t.bucketCount ≤ i then none
  else if i + 1 = t.bucketCount then some (drawn.overwriteLeading t.localId i)
  else some (drawn.overwriteLeading (t.localId.flipBit i) (i + 1))

end Kademlia.Table
