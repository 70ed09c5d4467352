/-
  Kademlia/Proofs/Refresh.lean
  ============================
  **The identifiers that refresh a bucket are the ones it is responsible for.**

  The identifiers that belong into a bucket are those with a certain beginning, its
  `stem`: for the last bucket the first bits of the local identifier, as many as its index
  says, and for every other one a bit more, of which the last is not that of the local
  identifier (`findBucket_eq_iff`).  The identifier for a refresh takes this beginning and
  is random after it (`randomId?_of_lt`), and such an overwriting leads to all identifiers
  with that beginning and to no other (`NodeId.exists_overwriteLeading_iff`).
-/
import Kademlia.Table.Refresh
import Kademlia.Proofs.Depth
import Kademlia.Proofs.LeadingBits

namespace Kademlia.Table

variable {t : Table} {i : Nat}

/-! ### What the identifiers of a bucket begin with -/

/-- The first `count` bits of an identifier. -/
structure Stem where
  id : NodeId
  count : Nat

/-- The beginning by which the identifiers of bucket `i` are known. -/
def stem (t : Table) (i : Nat) : Stem :=
  if i + 1 = t.bucketCount then ⟨t.localId, i⟩ else ⟨t.localId.flipBit i, i + 1⟩

theorem stem_of_last (hlast : i + 1 = t.bucketCount) : t.stem i = ⟨t.localId, i⟩ :=
  if_pos hlast

theorem stem_of_not_last (hlast : ¬ i + 1 = t.bucketCount) :
    t.stem i = ⟨t.localId.flipBit i, i + 1⟩ :=
  if_neg hlast

theorem count_stem_le (hi : i < t.bucketCount) : (t.stem i).count ≤ t.bucketCount := by
  by_cases hlast : i + 1 = t.bucketCount
  · simpa [stem_of_last hlast] using hi.le
  · simpa [stem_of_not_last hlast] using Nat.succ_le_of_lt hi

/-- A bucket is responsible for the identifiers that have its stem. -/
theorem findBucket_eq_iff (hi : i < t.bucketCount) (hcount : t.bucketCount ≤ 160)
    {id : NodeId} :
    t.findBucket id = i ↔ (t.stem i).count ≤ (t.stem i).id.sharedBits id := by
  by_cases hlast : i + 1 = t.bucketCount
  · have hindex : t.bucketCount - 1 = i := by omega
    simp only [stem_of_last hlast, findBucket, hindex, min_eq_right_iff]
  · have hinner : i < t.bucketCount - 1 := by omega
    have hshared : t.findBucket id = i ↔ t.localId.sharedBits id = i := by
      rw [findBucket]
      omega
    simp only [stem_of_not_last hlast]
    exact hshared.trans (NodeId.lt_sharedBits_flipBit_iff (hi.trans_le hcount)).symm

/-! ### Random identifiers -/

theorem randomId?_of_lt (hi : i < t.bucketCount) (drawn : NodeId) :
    t.randomId? i drawn = some (drawn.overwriteLeading (t.stem i).id (t.stem i).count) := by
  have hexists : ¬ t.bucketCount ≤ i := Nat.not_le_of_lt hi
  by_cases hlast : i + 1 = t.bucketCount
  · simp only [randomId?, if_neg hexists, if_pos hlast, stem_of_last hlast]
  · simp only [randomId?, if_neg hexists, if_neg hlast, stem_of_not_last hlast]

theorem randomId?_eq_none_iff (drawn : NodeId) :
    t.randomId? i drawn = none ↔ t.bucketCount ≤ i := by
  constructor
  · intro hnone
    by_contra hlt
    simp [randomId?_of_lt (Nat.lt_of_not_le hlt)] at hnone
  · intro hle
    exact if_pos hle

/-- What can be drawn for a bucket leads to the identifiers that it is responsible for, and
    to all of them. -/
theorem exists_randomId?_iff (hi : i < t.bucketCount) (hcount : t.bucketCount ≤ 160)
    {id : NodeId} : (∃ drawn, t.randomId? i drawn = some id) ↔ t.findBucket id = i := by
  have hstem : (t.stem i).count ≤ 160 := (count_stem_le hi).trans hcount
  simp only [randomId?_of_lt hi, Option.some.injEq]
  exact (NodeId.exists_overwriteLeading_iff hstem).trans (findBucket_eq_iff hi hcount).symm

/-- The last bucket is responsible for the local identifier. -/
theorem findBucket_localId (hcount : t.bucketCount ≤ 160) :
    t.findBucket t.localId = t.bucketCount - 1 := by
  rw [findBucket, NodeId.sharedBits_self]
  exact min_eq_right ((Nat.sub_le _ 1).trans hcount)

/-- **Refreshing a bucket.**  In every table that can come about, there is an identifier
    for a refresh exactly if there is a bucket with the index.  Whatever is drawn, the bucket
    is responsible for the identifier; and for every identifier that it is responsible for
    something can be drawn that leads to it, in the last bucket also to the local one. -/
theorem refresh_exact (h : t.Reachable) (i : Nat) :
    (∀ drawn, t.randomId? i drawn = none ↔ t.bucketCount ≤ i) ∧
      (i < t.bucketCount →
        (∀ drawn, ∃ id, t.randomId? i drawn = some id ∧ t.findBucket id = i) ∧
        ∀ id, t.findBucket id = i → ∃ drawn, t.randomId? i drawn = some id) ∧
      ∃ drawn, t.randomId? (t.bucketCount - 1) drawn = some t.localId := by
  have hcount : t.bucketCount ≤ 160 := h.bucketCount_le.trans (by decide)
  refine ⟨randomId?_eq_none_iff, fun hi => ⟨?_, ?_⟩, ?_⟩
  · intro drawn
    have hid := randomId?_of_lt hi drawn
    exact ⟨_, hid, (exists_randomId?_iff hi hcount).mp ⟨drawn, hid⟩⟩
  · intro id hfind
    exact (exists_randomId?_iff hi hcount).mpr hfind
  · have hlast : t.bucketCount - 1 < t.bucketCount := Nat.sub_one_lt t.bucketCount_pos.ne'
    exact (exists_randomId?_iff hlast hcount).mpr (findBucket_localId hcount)

/-- Whatever is drawn for the first of two buckets leads there, and something can be drawn
    that leads to the one neighbour in it. -/
theorem refresh_exact_neighbourhood :
    neighbourhood.Reachable ∧ 0 < neighbourhood.bucketCount ∧
      (∃ id, neighbourhood.randomId? 0 (neighbour 5).id = some id ∧
        neighbourhood.findBucket id = 0) ∧
      neighbourhood.findBucket (neighbour 0).id = 0 ∧
      (∃ drawn, neighbourhood.randomId? 0 drawn = some (neighbour 0).id) ∧
      neighbourhood.randomId? 2 .zero = none := by
  have hfirst : 0 < neighbourhood.bucketCount := by decide
  have hmember : neighbourhood.findBucket (neighbour 0).id = 0 := by decide
  obtain ⟨hsound, hcomplete⟩ := (refresh_exact reachable_neighbourhood 0).2.1 hfirst
  have hbeyond := (refresh_exact reachable_neighbourhood 2).1 .zero
  exact ⟨reachable_neighbourhood, hfirst, hsound (neighbour 5).id, hmember,
    hcomplete (neighbour 0).id hmember, hbeyond.mpr (by decide)⟩

end Kademlia.Table
