/-
  Kademlia/Proofs/Retry.lean
  ==========================
  **A candidate that comes back until it is let in, or for ever.**

  A candidate and the eight good or unknown occupants of the last bucket share at
  least its index many bits with the local identifier.  As long as all nine share
  more, each attempt is refused and carries the eight over to a new last bucket, slot
  by slot (`Contended.carriesOver`); so the last index climbs to the least number of
  bits that one of the nine shares (`Contended.lifted`).  There one of two things
  happens.  If somebody reaches deeper, the split parts the nine, which makes room
  (`Contended.admitted`).  If nobody does, there is nothing to split, and the table
  stays as it is (`Contended.stuck`).
-/
import Kademlia.Proofs.Depth

namespace Kademlia.Table

variable {t : Table} {p : Peer} {now : Time}

/-! ### One attempt -/

/-- The last bucket of `t` is emptied, and a bucket with the same row is appended. -/
def CarriesOver (t t' : Table) : Prop :=
  t'.localId = t.localId ∧ ∃ emptied next : Bucket,
    t'.buckets = t.buckets.dropLast ++ [emptied, next] ∧
    emptied.index = t.last.index ∧ emptied.slots = List.replicate 8 none ∧ emptied.size = 0 ∧
    next.index = t.last.index + 1 ∧ next.slots = t.last.slots ∧ next.size = t.last.size

/-- A split carries everyone over if everyone belongs deeper. -/
theorem Split.carriesOver {source dest : Bucket} {t' : Table} (h : t.Split source dest t')
    (ht : t.WellFormed) (hfull : t.last.peers.length = 8)
    (hall : ∀ q ∈ t.last.peers, t.deeper q = true) : t.CarriesOver t' := by
  have hcounted := ht.counted_last
  have hleft : t.last.peers.filter t.deeper = t.last.peers := List.filter_eq_self.mpr hall
  have hempty : source.slots = List.replicate 8 none := by
    rw [h.slots_source, Slots.vacate_of_all_leave hall, t.last.length_slots]
  have hrow : dest.slots = t.last.slots := by
    have hsame : t.last.slots = t.last.peers.map some :=
      Slots.eq_map_some (hfull.trans t.last.length_slots.symm)
    simp only [h.packed_dest.slots_eq, hleft, hfull, Bucket.packed, Nat.sub_self,
      List.replicate_zero, List.append_nil, hsame]
  have hindex : t.last.index + 1 = t.bucketCount := by
    have hpos := t.bucketCount_pos
    rw [ht.indexed _ _ t.getElem?_last]
    omega
  refine ⟨h.localId_eq, source, dest, h.buckets_eq, h.index_source, hempty, ?_,
    h.index_dest.trans hindex.symm, hrow, ?_⟩
  · rw [h.counted_source hcounted, hempty]
    rfl
  · rw [h.packed_dest.counted, hrow, ← hcounted]

namespace Contended

theorem carriesOver (h : t.Contended p now) (hall : ∀ q ∈ p :: t.last.peers, t.deeper q = true) :
    (t.insert p now).answer = .full ∧ t.CarriesOver (t.insert p now).table := by
  obtain ⟨source, dest, t₁, hsplit, hcase⟩ :=
    h.insert_cases ⟨p, List.mem_cons_self, hall p List.mem_cons_self⟩
  rcases hcase with ⟨-, hanswer, rfl⟩ | ⟨hnot, -⟩
  · refine ⟨hanswer, hsplit.carriesOver h.wellFormed h.full ?_⟩
    exact fun q hq => hall q (List.mem_cons_of_mem p hq)
  · exact absurd hall hnot

/-- If some of the nine belong deeper and others do not, the split makes room. -/
theorem admitted (h : t.Contended p now) (hdeeper : ∃ q ∈ p :: t.last.peers, t.deeper q = true)
    (hnot : ¬ ∀ q ∈ p :: t.last.peers, t.deeper q = true) :
    (t.insert p now).answer = .added (min (t.localId.sharedBits p.id) t.bucketCount) := by
  obtain ⟨source, dest, t₁, hsplit, hcase⟩ := h.insert_cases hdeeper
  rcases hcase with ⟨hall, -⟩ | ⟨-, hanswer, -⟩
  · exact absurd hall hnot
  · rw [hanswer, hsplit.findBucket_eq]

/-- If none of the nine belongs deeper, nothing changes. -/
theorem stuck (h : t.Contended p now)
    (hnone : ¬ ∃ q ∈ p :: t.last.peers, t.deeper q = true) :
    (t.insert p now).answer = .full ∧ (t.insert p now).table = t := by
  have hno : ¬ t.canSplit (t.findBucket p.id) p.id = true := by
    intro hyes
    obtain ⟨-, -, q, hq, hdeep⟩ := canSplit_iff.mp hyes
    exact hnone ⟨q, hq, (deeper_iff h.last).mpr hdeep⟩
  have hcases := Table.insert_cases h.wellFormed p now
  generalize t.insert p now = u at hcases ⊢
  cases hcases with
  | self hself => exact absurd hself h.absent.foreign
  | present _ hpresent => exact absurd hpresent h.absent.not_present
  | added _ hroom => exact absurd h.blocked.full (Nat.ne_of_lt hroom)
  | replaced _ _ hmem hstatus => exact absurd ⟨_, hmem, hstatus⟩ h.blocked.not_displaceable
  | refused => exact ⟨rfl, rfl⟩
  | addedAfterSplit _ _ hyes => exact absurd hyes hno
  | refusedAfterSplit _ _ hyes => exact absurd hyes hno

end Contended

/-! ### The depths of the nine -/

/-- How many bits the candidate and each occupant of the last bucket share with the
    local identifier. -/
def depths (t : Table) (p : Peer) : List Nat :=
  (p :: t.last.peers).map fun q => t.localId.sharedBits q.id

theorem depths_ne_nil (t : Table) (p : Peer) : t.depths p ≠ [] :=
  List.cons_ne_nil _ _

def leastDepth (t : Table) (p : Peer) : Nat :=
  (t.depths p).min (t.depths_ne_nil p)

def greatestDepth (t : Table) (p : Peer) : Nat :=
  (t.depths p).max (t.depths_ne_nil p)

theorem le_leastDepth_iff {n : Nat} :
    n ≤ t.leastDepth p ↔ ∀ q ∈ p :: t.last.peers, n ≤ t.localId.sharedBits q.id := by
  rw [leastDepth, List.le_min_iff, depths, List.forall_mem_map]

theorem lt_greatestDepth_iff {n : Nat} :
    n < t.greatestDepth p ↔ ∃ q ∈ p :: t.last.peers, n < t.localId.sharedBits q.id := by
  rw [← Nat.not_le, greatestDepth, List.max_le_iff, depths, List.forall_mem_map]
  simp only [not_forall, exists_prop, Nat.not_le]

/-! ### Many attempts -/

/-- The table after `k` attempts to insert `p` at `now`. -/
def retried (t : Table) (p : Peer) (now : Time) : Nat → Table
  | 0 => t
  | k + 1 => ((t.retried p now k).insert p now).table

theorem retried_eq_insertAll (t : Table) (p : Peer) (now : Time) (k : Nat) :
    t.retried p now k = (t.insertAll (fun _ => now) (List.replicate k p)).table := by
  induction k with
  | zero => rfl
  | succ k ih =>
    rw [List.replicate_succ', insertAll_append, ← ih]
    rfl

/-- Once an attempt changes nothing, none does. -/
theorem retried_of_stuck {m k : Nat} (hstuck : ((t.retried p now m).insert p now).table =
    t.retried p now m) (hk : m ≤ k) : t.retried p now k = t.retried p now m := by
  induction k, hk using Nat.le_induction with
  | base => rfl
  | succ k _ ih => rw [retried, ih, hstuck]

/-- In `u` the candidate faces the eight it faced in `t`, in a last bucket that has
    moved `k` places on. -/
structure Lifted (t : Table) (p : Peer) (now : Time) (k : Nat) (u : Table) : Prop where
  contended : u.Contended p now
  localId_eq : u.localId = t.localId
  peers_last : u.last.peers = t.last.peers
  bucketCount_eq : u.bucketCount = t.findBucket p.id + k + 1

namespace Lifted

variable {u : Table} {k : Nat}

theorem deeper_iff (h : t.Lifted p now k u) {q : Peer} :
    u.deeper q = true ↔ t.findBucket p.id + k < t.localId.sharedBits q.id := by
  rw [deeper, decide_eq_true_iff, h.bucketCount_eq, h.localId_eq, Nat.add_sub_cancel]

theorem all_deeper_iff (h : t.Lifted p now k u) :
    (∀ q ∈ p :: u.last.peers, u.deeper q = true) ↔ t.findBucket p.id + k < t.leastDepth p := by
  simp only [h.peers_last, h.deeper_iff, Nat.lt_iff_add_one_le, le_leastDepth_iff]

theorem some_deeper_iff (h : t.Lifted p now k u) :
    (∃ q ∈ p :: u.last.peers, u.deeper q = true) ↔ t.findBucket p.id + k < t.greatestDepth p := by
  simp only [h.peers_last, h.deeper_iff, lt_greatestDepth_iff]

end Lifted

namespace Contended

/-- Nobody shares less than the index of the last bucket. -/
theorem findBucket_le_leastDepth (h : t.Contended p now) :
    t.findBucket p.id ≤ t.leastDepth p := by
  rw [le_leastDepth_iff, List.forall_mem_cons]
  constructor
  · exact Nat.min_le_left _ _
  · intro q hq
    have hle := h.wellFormed.le_sharedBits_of_last hq
    rwa [← h.last, Nat.add_sub_cancel] at hle

/-- The last bucket climbs by one place with each attempt, as far as the least depth. -/
theorem lifted (h : t.Contended p now) {k : Nat}
    (hk : t.findBucket p.id + k ≤ t.leastDepth p) : t.Lifted p now k (t.retried p now k) := by
  have hdeep : ∀ q ∈ p :: t.last.peers, t.bucketCount + k ≤ t.localId.sharedBits q.id + 1 := by
    intro q hq
    have hle := le_leastDepth_iff.mp hk q hq
    rw [← h.last]
    omega
  obtain ⟨hcontended, hpeers, hcount⟩ := h.retries k hdeep
  rw [retried_eq_insertAll]
  refine ⟨hcontended, localId_insertAll h.wellFormed _ _, hpeers, ?_⟩
  rw [hcount, ← h.last]
  omega

end Contended

/-! ### A full bucket of peers that all share one bit -/

/-- A peer that shares exactly one bit with the identifier zero, one for each `m`. -/
def rival (m : UInt8) : Peer :=
  Peer.new ((NodeId.zero.flipBit 1).sibling m) (.v4 ⟨Bytes.fill 4 127, 6881⟩)

/-- Eight peers that share one bit with the local identifier. -/
def standoff : Table :=
  ((new .zero).insertAll (fun _ => 0) ([0, 1, 2, 3, 4, 5, 6, 7].map rival)).table

theorem reachable_insertAll (localId : NodeId) (now : Time) (ps : List Peer) :
    ((new localId).insertAll (fun _ => now) ps).table.Reachable := by
  rw [← run_insertions]
  exact (Reachable.new localId).run _

/-! ### The end of the refusals -/

/-- **Retrying.**  A candidate is refused by a last bucket that is full of peers who may
    not be displaced.  It is refused once for each place between that bucket and the
    least depth of the nine, and each time the eight are carried over to a new last
    bucket.  The next attempt puts it into the bucket that it belongs to if one of the
    nine reaches deeper, and if not, neither this attempt nor any later one does
    anything. -/
theorem retry_converges (h : t.Reachable) (habsent : t.Absent p) (hblocked : t.Blocked p now)
    (hlast : t.findBucket p.id + 1 = t.bucketCount) :
    t.findBucket p.id ≤ t.leastDepth p ∧
    (∀ k < t.leastDepth p - t.findBucket p.id,
      ((t.retried p now k).insert p now).answer = .full ∧
      (t.retried p now k).CarriesOver (t.retried p now (k + 1))) ∧
    (t.leastDepth p < t.greatestDepth p →
      ((t.retried p now (t.leastDepth p - t.findBucket p.id)).insert p now).answer =
        .added (min (t.localId.sharedBits p.id) (t.leastDepth p + 1))) ∧
    (t.leastDepth p = t.greatestDepth p → ∀ k, t.leastDepth p - t.findBucket p.id ≤ k →
      ((t.retried p now k).insert p now).answer = .full ∧
      t.retried p now k = t.retried p now (t.leastDepth p - t.findBucket p.id)) := by
  have hcontended : t.Contended p now := ⟨h.wellFormed, habsent, hblocked, hlast⟩
  have hle := hcontended.findBucket_le_leastDepth
  have hreach : t.findBucket p.id + (t.leastDepth p - t.findBucket p.id) = t.leastDepth p :=
    Nat.add_sub_cancel' hle
  -- the table in which the last index is the least depth
  have htop := hcontended.lifted (Nat.le_of_eq hreach)
  refine ⟨hle, ?_, ?_, ?_⟩
  · intro k hk
    have hlifted := hcontended.lifted (k := k) (by omega)
    exact hlifted.contended.carriesOver (hlifted.all_deeper_iff.mpr (by omega))
  · intro hlt
    rw [htop.contended.admitted, htop.localId_eq, htop.bucketCount_eq, hreach]
    · rwa [htop.some_deeper_iff, hreach]
    · rw [htop.all_deeper_iff, hreach]
      exact Nat.lt_irrefl _
  · intro heq k hk
    obtain ⟨hanswer, hsame⟩ := htop.contended.stuck (by
      rw [htop.some_deeper_iff, hreach, heq]
      exact Nat.lt_irrefl _)
    have hkept := retried_of_stuck hsame hk
    exact ⟨by rw [hkept, hanswer], hkept⟩

set_option maxRecDepth 4000 in
/-- A ninth peer that shares one bit is refused once with a split, and from then on for
    ever.  One that shares three bits is let in at the second attempt. -/
theorem retry_converges_standoff :
    standoff.Reachable ∧
    (standoff.Absent (rival 8) ∧ standoff.Blocked (rival 8) 0 ∧
      standoff.findBucket (rival 8).id + 1 = standoff.bucketCount ∧
      standoff.CarriesOver (standoff.retried (rival 8) 0 1) ∧
      ∀ k, 1 ≤ k → ((standoff.retried (rival 8) 0 k).insert (rival 8) 0).answer = .full ∧
        standoff.retried (rival 8) 0 k = standoff.retried (rival 8) 0 1) ∧
    standoff.Absent (neighbour 3) ∧ standoff.Blocked (neighbour 3) 0 ∧
      standoff.findBucket (neighbour 3).id + 1 = standoff.bucketCount ∧
      (standoff.insert (neighbour 3) 0).answer = .full ∧
      ((standoff.retried (neighbour 3) 0 1).insert (neighbour 3) 0).answer = .added 2 := by
  have hreachable : standoff.Reachable := reachable_insertAll .zero 0 _
  refine ⟨hreachable, ?_, ?_⟩
  · have habsent : standoff.Absent (rival 8) := ⟨by decide, by decide⟩
    have hblocked : standoff.Blocked (rival 8) 0 := ⟨by decide, by decide⟩
    have hlast : standoff.findBucket (rival 8).id + 1 = standoff.bucketCount := by decide
    have hindex : standoff.findBucket (rival 8).id = 0 := by decide
    have hleast : standoff.leastDepth (rival 8) = 1 := by decide
    have hgreatest : standoff.greatestDepth (rival 8) = 1 := by decide
    have hretry := retry_converges hreachable habsent hblocked hlast
    rw [hleast, hgreatest, hindex] at hretry
    obtain ⟨-, hrefused, -, hforever⟩ := hretry
    exact ⟨habsent, hblocked, hlast, (hrefused 0 Nat.one_pos).2, hforever rfl⟩
  · have habsent : standoff.Absent (neighbour 3) := ⟨by decide, by decide⟩
    have hblocked : standoff.Blocked (neighbour 3) 0 := ⟨by decide, by decide⟩
    have hlast : standoff.findBucket (neighbour 3).id + 1 = standoff.bucketCount := by decide
    have hindex : standoff.findBucket (neighbour 3).id = 0 := by decide
    have hshared : standoff.localId.sharedBits (neighbour 3).id = 3 := by decide
    have hleast : standoff.leastDepth (neighbour 3) = 1 := by decide
    have hgreatest : standoff.greatestDepth (neighbour 3) = 3 := by decide
    have hretry := retry_converges hreachable habsent hblocked hlast
    rw [hleast, hgreatest, hindex, hshared] at hretry
    obtain ⟨-, hrefused, hadmitted, -⟩ := hretry
    exact ⟨habsent, hblocked, hlast, (hrefused 0 Nat.one_pos).1, hadmitted (by decide)⟩

end Kademlia.Table
