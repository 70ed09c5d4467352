/-
  Kademlia/Proofs/Expansion.lean
  ==============================
  **Gathering goes through the buckets outward from the target.**

  Let `i` be the index of the bucket responsible for a target.  Who is stored
  there shares at least `i` bits with the target, and more than `i` unless the
  bucket is the last one; who is stored farther on shares exactly `i`; and who is
  stored before it shares exactly as many as the index of his bucket.  So the
  bucket itself comes first, then everything behind it, and then the buckets
  before it, one by one (`pairwise_expansion`).

  Since no two stored peers are equally far from the target, this is the only
  sorted list of the peers (`WellFormed.eq_byDistance`), and its front is what
  gathering gives.
-/
import Kademlia.Proofs.Invariant
import Kademlia.Proofs.Selection

namespace Kademlia.Table

variable {t : Table} {x : NodeId}

/-! ### How many bits stored peers share with a target -/

namespace WellFormed

theorem sharedBits_of_before (ht : t.WellFormed) {k : Nat} {b : Bucket}
    (hb : t.buckets[k]? = some b) (hk : k < t.findBucket x) {p : Peer} (hp : p ∈ b.peers) :
    p.id.sharedBits x = k := by
  rw [findBucket] at hk
  have hlocal := ht.sharedBits_eq hb (by omega) hp
  rw [NodeId.sharedBits_eq_of_lt (c := t.localId) (by omega), hlocal]

theorem sharedBits_of_after (ht : t.WellFormed) {k : Nat} {b : Bucket}
    (hb : t.buckets[k]? = some b) (hk : t.findBucket x < k) {p : Peer} (hp : p ∈ b.peers) :
    p.id.sharedBits x = t.findBucket x := by
  have hplaced := ht.placed k b hb p hp
  rw [findBucket] at hplaced hk ⊢
  rw [NodeId.sharedBits_comm, NodeId.sharedBits_eq_of_lt (c := t.localId) (by omega)]
  omega

theorem le_sharedBits_of_home (ht : t.WellFormed) {p : Peer} (hp : p ∈ (t.home x).peers) :
    t.findBucket x ≤ p.id.sharedBits x := by
  have hplaced := ht.placed _ _ (t.getElem?_findBucket x) p hp
  rw [findBucket] at hplaced
  apply NodeId.le_sharedBits_trans (b := t.localId)
  · apply NodeId.le_sharedBits_symm
    omega
  · rw [findBucket]
    omega

/-- Short of the last bucket, the local identifier is left at the same place, and so
    the next bit is shared too. -/
theorem lt_sharedBits_of_home (ht : t.WellFormed) (hlast : t.findBucket x + 1 < t.bucketCount)
    {p : Peer} (hp : p ∈ (t.home x).peers) : t.findBucket x < p.id.sharedBits x := by
  have hlocal := ht.sharedBits_eq (t.getElem?_findBucket x) hlast hp
  have htarget : t.localId.sharedBits x = t.findBucket x := by
    rw [findBucket] at hlast ⊢
    omega
  have hforeign := ht.foreign p (mem_peers.mpr ⟨_, t.home_mem x, hp⟩)
  have hlt : t.findBucket x < 160 := by
    by_contra hge
    apply hforeign
    exact (NodeId.eq_of_sharedBits (by omega : 160 ≤ t.localId.sharedBits p.id)).symm
  exact NodeId.lt_sharedBits_of_eq hlt hlocal htarget

/-! ### The sorted list of the peers -/

/-- No two stored peers are equally far from a target, so there is only one way to
    sort them. -/
theorem eq_byDistance (ht : t.WellFormed) {ps : List Peer} (hperm : ps.Perm t.peers)
    (hsorted : ps.Pairwise (NoFarther x)) : ps = byDistance x t.peers := by
  apply List.Perm.eq_of_pairwise _ hsorted (pairwise_byDistance x t.peers)
    (hperm.trans (byDistance_perm x t.peers).symm)
  intro p q hp hq hpq hqp
  rw [noFarther_iff] at hpq hqp
  have hdistance := Distance.toNat_injective (Nat.le_antisymm hpq hqp)
  exact ht.eq_of_id_eq (hperm.mem_iff.mp hp) ((byDistance_perm x t.peers).mem_iff.mp hq)
    (NodeId.distance_injective hdistance)

end WellFormed

/-! ### Outward from the target -/

/-- The peers of a table in the order of a search that starts in the bucket
    responsible for the target, goes on with all buckets behind it at once, and then
    takes the buckets before it one by one. -/
def expansion (t : Table) (x : NodeId) : List Peer :=
  byDistance x (t.home x).peers ++
    byDistance x ((t.buckets.drop (t.findBucket x + 1)).flatMap Bucket.peers) ++
    (t.buckets.take (t.findBucket x)).reverse.flatMap fun b => byDistance x b.peers

theorem expansion_perm (t : Table) (x : NodeId) : (t.expansion x).Perm t.peers := by
  obtain ⟨before, after, hsplit, hlen⟩ := t.buckets_split x
  have htake : t.buckets.take (t.findBucket x) = before := by
    rw [hsplit, ← hlen, List.take_left]
  have hdrop : t.buckets.drop (t.findBucket x + 1) = after := by
    rw [hsplit, ← hlen, List.append_cons, List.drop_left' (by simp)]
  have hbefore : (before.reverse.flatMap fun b => byDistance x b.peers).Perm
      (before.flatMap Bucket.peers) :=
    before.reverse_perm.flatMap fun b _ => byDistance_perm x b.peers
  have hpeers : t.peers = before.flatMap Bucket.peers ++
      ((t.home x).peers ++ after.flatMap Bucket.peers) := by
    rw [peers, hsplit, List.flatMap_append, List.flatMap_cons]
  rw [expansion, htake, hdrop, hpeers]
  exact (((byDistance_perm x _).append (byDistance_perm x _)).append hbefore).trans
    List.perm_append_comm

theorem mem_after {p : Peer}
    (h : p ∈ byDistance x ((t.buckets.drop (t.findBucket x + 1)).flatMap Bucket.peers)) :
    ∃ k b, t.findBucket x < k ∧ t.buckets[k]? = some b ∧ p ∈ b.peers := by
  obtain ⟨b, hb, hp⟩ := List.mem_flatMap.mp ((byDistance_perm x _).mem_iff.mp h)
  obtain ⟨j, hj⟩ := List.mem_iff_getElem?.mp hb
  rw [List.getElem?_drop] at hj
  exact ⟨_, b, by omega, hj, hp⟩

theorem mem_before {p : Peer}
    (h : p ∈ (t.buckets.take (t.findBucket x)).reverse.flatMap fun b => byDistance x b.peers) :
    ∃ k b, k < t.findBucket x ∧ t.buckets[k]? = some b ∧ p ∈ b.peers := by
  obtain ⟨b, hb, hp⟩ := List.mem_flatMap.mp h
  obtain ⟨k, hk⟩ := List.mem_iff_getElem?.mp (List.mem_reverse.mp hb)
  rw [List.getElem?_take] at hk
  split at hk
  · next hlt => exact ⟨k, b, hlt, hk, (byDistance_perm x b.peers).mem_iff.mp hp⟩
  · cases hk

theorem pairwise_expansion (ht : t.WellFormed) (x : NodeId) :
    (t.expansion x).Pairwise (NoFarther x) := by
  rw [expansion, List.pairwise_append, List.pairwise_append]
  refine ⟨⟨pairwise_byDistance x _, pairwise_byDistance x _, ?_⟩, ?_, ?_⟩
  · -- the bucket itself, and what is behind it
    intro p hp q hq
    obtain ⟨k, b, hk, hb, hqb⟩ := mem_after hq
    have hlast : t.findBucket x + 1 < t.bucketCount := by
      have hlt := (List.getElem?_eq_some_iff.mp hb).1
      rw [bucketCount]
      omega
    apply noFarther_of_sharedBits_lt
    rw [ht.sharedBits_of_after hb hk hqb]
    exact ht.lt_sharedBits_of_home hlast ((byDistance_perm x _).mem_iff.mp hp)
  · -- the buckets before it, from the last to the first
    rw [List.pairwise_flatMap, List.pairwise_reverse, List.pairwise_iff_getElem]
    refine ⟨fun b _ => pairwise_byDistance x b.peers, ?_⟩
    intro k₁ k₂ hk₁ hk₂ hlt p hp q hq
    have hp' := (byDistance_perm x _).mem_iff.mp hp
    have hq' := (byDistance_perm x _).mem_iff.mp hq
    rw [List.length_take] at hk₁ hk₂
    rw [List.getElem_take] at hp' hq'
    apply noFarther_of_sharedBits_lt
    rw [ht.sharedBits_of_before (List.getElem?_eq_getElem _) (by omega) hp',
      ht.sharedBits_of_before (List.getElem?_eq_getElem _) (by omega) hq']
    exact hlt
  · -- both of these, and the buckets before them
    intro p hp q hq
    obtain ⟨k, b, hk, hb, hqb⟩ := mem_before hq
    apply noFarther_of_sharedBits_lt
    rw [ht.sharedBits_of_before hb hk hqb]
    rcases List.mem_append.mp hp with hp | hp
    · exact hk.trans_le (ht.le_sharedBits_of_home ((byDistance_perm x _).mem_iff.mp hp))
    · obtain ⟨k', b', hk', hb', hpb⟩ := mem_after hp
      rw [ht.sharedBits_of_after hb' hk' hpb]
      exact hk

theorem gatherClosest_of_wellFormed (ht : t.WellFormed) (x : NodeId) :
    t.gatherClosest x = (t.expansion x).take 8 := by
  rw [gatherClosest_eq, ← ht.eq_byDistance (t.expansion_perm x) (pairwise_expansion ht x)]

/-- **Gathering is bucket expansion.**  In every table that can come about, and for
    every target, gathering from all peers gives the first eight on the way outward
    from the target; a full bucket is the whole answer. -/
theorem gatherClosest_eq_expansion (h : t.Reachable) (x : NodeId) :
    t.gatherClosest x =
        (byDistance x (t.home x).peers ++
          byDistance x ((t.buckets.drop (t.findBucket x + 1)).flatMap Bucket.peers) ++
          (t.buckets.take (t.findBucket x)).reverse.flatMap fun b => byDistance x b.peers).take 8 ∧
      ((t.home x).peers.length = 8 → t.gatherClosest x = byDistance x (t.home x).peers) := by
  have hgather := gatherClosest_of_wellFormed h.wellFormed x
  refine ⟨hgather, ?_⟩
  intro hfull
  have hlen : (byDistance x (t.home x).peers).length = 8 :=
    (byDistance_perm x _).length_eq.trans hfull
  rw [hgather, expansion, List.append_assoc, List.take_left' hlen]

/-- The bucket of the local identifier is full; that of the first neighbour holds
    nobody else, so seven more are taken from behind it. -/
theorem gatherClosest_eq_expansion_neighbourhood :
    neighbourhood.Reachable ∧ (neighbourhood.home .zero).peers.length = 8 ∧
      neighbourhood.gatherClosest .zero = byDistance .zero (neighbourhood.home .zero).peers ∧
      (neighbourhood.home (neighbour 0).id).peers.length = 1 ∧
      neighbourhood.gatherClosest (neighbour 0).id =
        (neighbourhood.expansion (neighbour 0).id).take 8 := by
  have hfull : (neighbourhood.home .zero).peers.length = 8 := by decide
  exact ⟨reachable_neighbourhood, hfull,
    (gatherClosest_eq_expansion reachable_neighbourhood .zero).2 hfull, by decide,
    (gatherClosest_eq_expansion reachable_neighbourhood (neighbour 0).id).1⟩

end Kademlia.Table
