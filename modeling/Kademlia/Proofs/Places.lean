/-
  Kademlia/Proofs/Places.lean
  ===========================
  **A table, place by place.**

  A place is a slot of a bucket.  `slot?` reads a table at a place: there may be no such
  slot, and a slot may be free or hold a peer.  Only a split moves records from one place
  to another; everything else that is done to a stored peer is a write to a single place.
  `Rewritten` says this without naming an operation: one place holds what was written
  there, and every other one what it held before.
-/
import Kademlia.Proofs.Table

namespace Kademlia.Table

/-! ### Reading -/

/-- What is in slot `j` of bucket `k`. -/
def slot? (t : Table) (k j : Nat) : Option (Option Peer) :=
  (t.bucket? k).bind fun b => b.slots[j]?

theorem slot?_of_bucket? {t : Table} {k : Nat} {b : Bucket} (h : t.bucket? k = some b) (j : Nat) :
    t.slot? k j = b.slots[j]? := by
  simp [slot?, h]

theorem bucket?_findBucket (t : Table) (id : NodeId) :
    t.bucket? (t.findBucket id) = some (t.home id) :=
  t.getElem?_findBucket id

/-! ### Writing -/

theorem bucket?_setBucket_here (t : Table) (id : NodeId) (b : Bucket) :
    (t.setBucket (t.findBucket id) b).bucket? (t.findBucket id) = some b := by
  simp [bucket?, setBucket, t.findBucket_lt id]

theorem bucket?_setBucket_elsewhere (t : Table) {i k : Nat} (h : k ≠ i) (b : Bucket) :
    (t.setBucket i b).bucket? k = t.bucket? k := by
  simp [bucket?, setBucket, Ne.symm h]

/-- `t'` has `new` in slot `j` of bucket `k`, and is like `t` in all other places. -/
structure Rewritten (t : Table) (k j : Nat) (new : Option Peer) (t' : Table) : Prop where
  localId_eq : t'.localId = t.localId
  bucketCount_eq : t'.bucketCount = t.bucketCount
  here : t'.slot? k j = some new
  elsewhere : ∀ k' j', (k', j') ≠ (k, j) → t'.slot? k' j' = t.slot? k' j'

/-- The buckets of two tables were last changed at the same times. -/
def SameTimes (t t' : Table) : Prop :=
  ∀ k, (t'.bucket? k).map Bucket.lastChanged = (t.bucket? k).map Bucket.lastChanged

theorem rewritten_setBucket {t : Table} {id : NodeId} {j : Nat} {new : Option Peer} {b : Bucket}
    (hj : j < 8) (hb : b.slots = (t.home id).slots.set j new) :
    t.Rewritten (t.findBucket id) j new (t.setBucket (t.findBucket id) b) where
  localId_eq := rfl
  bucketCount_eq := by simp [bucketCount, setBucket]
  here := by
    have hlt : j < (t.home id).slots.length := by simpa [(t.home id).length_slots] using hj
    rw [slot?_of_bucket? (t.bucket?_setBucket_here id b), hb]
    simp [hlt]
  elsewhere := by
    intro k' j' hplace
    by_cases hk : k' = t.findBucket id
    · subst hk
      have hne : j ≠ j' := fun h => hplace (by rw [h])
      rw [slot?_of_bucket? (t.bucket?_setBucket_here id b),
        slot?_of_bucket? (t.bucket?_findBucket id), hb]
      simp [hne]
    · simp only [slot?, t.bucket?_setBucket_elsewhere hk]

theorem sameTimes_setBucket {t : Table} {id : NodeId} {b : Bucket}
    (hb : b.lastChanged = (t.home id).lastChanged) :
    t.SameTimes (t.setBucket (t.findBucket id) b) := by
  intro k
  by_cases hk : k = t.findBucket id
  · subst hk
    simp [t.bucket?_setBucket_here, t.bucket?_findBucket, hb]
  · rw [t.bucket?_setBucket_elsewhere hk]

end Kademlia.Table
