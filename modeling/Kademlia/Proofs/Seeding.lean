/-
  Kademlia/Proofs/Seeding.lean
  ============================
  **A search table holds exactly the closest peers of its source.**

  Gathering gives eight peers at most, no two of them with the same identifier.  So a new
  table takes them in one after the other, and its only bucket is never asked for more room
  than it has: no status is looked at, nobody is displaced, and the clock does not matter.
  Only the local identifier of the search is passed over, if it is among them
  (`Single.insertAll`).

  The slots then hold the peers in the order of their distances, and a second gathering for
  the same target leaves them in it (`WellFormed.gatherClosest_eq_peers`).
-/
import Kademlia.Proofs.Admission
import Kademlia.Proofs.Eviction
import Kademlia.Proofs.Gathering

namespace Kademlia.Table

variable {t source : Table}

/-! ### What was gathered -/

theorem pairwise_gatherClosest (t : Table) (x : NodeId) :
    (t.gatherClosest x).Pairwise (NoFarther x) :=
  (pairwise_byDistance x t.peers).sublist (t.gatherClosest_sublist x)

theorem WellFormed.nodup_gatherClosest (ht : t.WellFormed) (x : NodeId) :
    ((t.gatherClosest x).map Peer.id).Nodup :=
  ((t.gatherClosest_sublist x).map Peer.id).nodup (ht.nodup_byDistance x)

/-- Up to eight peers that lie in the order of their distances are gathered as they lie. -/
theorem WellFormed.gatherClosest_eq_peers (ht : t.WellFormed) {x : NodeId}
    (hlen : t.peers.length ≤ 8) (hsorted : t.peers.Pairwise (NoFarther x)) :
    t.gatherClosest x = t.peers := by
  have hself : t.peers = byDistance x t.peers := ht.eq_byDistance (List.Perm.refl _) hsorted
  rw [gatherClosest_eq, ← hself]
  exact List.take_of_length_le hlen

/-! ### The search table -/

/-- **Seeding is exact.**  Whatever the liveness of the peers and whatever the clock reads, a
    search table has one bucket, and in it the gathered peers, unchanged and in their order,
    without the local identifier; everybody else was added, and nothing was reported.
    Gathering from the search table gives the same list once more. -/
theorem seed_exact (h : source.Reachable) (localId target : NodeId) (clock : Nat → Time) :
    let u := seed localId source target clock
    let held := (source.gatherClosest target).filter fun p => p.id ≠ localId
    u.table.localId = localId ∧ u.table.bucketCount = 1 ∧ u.table.peers = held ∧
      u.answer = (source.gatherClosest target).map
        (fun p => if p.id = localId then .selfEntry else .added 0) ∧
      u.events = [] ∧ u.table.gatherClosest target = held := by
  intro u held
  have hnew := wellFormed_new localId
  have hlen : (source.gatherClosest target).length ≤ 8 :=
    (h.wellFormed.length_gatherClosest target).trans_le (min_le_left 8 _)
  obtain ⟨t, hseed, hsingle⟩ := (single_new localId).insertAll hnew clock
    (source.gatherClosest target) (by simpa using hlen) (h.wellFormed.nodup_gatherClosest target)
  have hu : u = ⟨_, t, []⟩ := hseed
  have hlocal : u.table.localId = localId := localId_insertAll hnew clock _
  have hwell : u.table.WellFormed := wellFormed_insertAll hnew clock _
  have hpeers : u.table.peers = held := by
    rw [hu]
    exact hsingle.peers_eq
  -- what is left without the local identifier is as short, and in the same order
  have hsublist : held.Sublist (source.gatherClosest target) := List.filter_sublist
  have hagain : u.table.gatherClosest target = u.table.peers := by
    apply hwell.gatherClosest_eq_peers
    · rw [hpeers]
      exact hsublist.length_le.trans hlen
    · rw [hpeers]
      exact (source.pairwise_gatherClosest target).sublist hsublist
  refine ⟨hlocal, ?_, hpeers, ?_, ?_, hagain.trans hpeers⟩
  · rw [hu]
    exact hsingle.bucketCount_eq
  · rw [hu]
    rfl
  · rw [hu]

set_option maxRecDepth 4000 in
/-- The third of the veterans to come is the node itself.  At this time the seventh is bad and
    the fourth is questionable, and both are taken in with what is known of them. -/
theorem seed_exact_veterans :
    let u := seed (veteran 2).id veterans .zero fun _ => 50 * minute
    veterans.Reachable ∧ (veteran 6).status (50 * minute) = .bad ∧
      (veteran 3).status (50 * minute) = .questionable ∧ u.table.bucketCount = 1 ∧
      u.table.peers = [7, 6, 5, 4, 3, 1, 0].map veteran ∧
      u.answer[5]? = some .selfEntry ∧ u.table.gatherClosest .zero = u.table.peers := by
  have hreachable : veterans.Reachable := (Reachable.new .zero).run _
  obtain ⟨-, hcount, hpeers, hanswer, -, hagain⟩ :=
    seed_exact hreachable (veteran 2).id .zero fun _ => 50 * minute
  refine ⟨hreachable, by decide, by decide, hcount, ?_, ?_, hagain.trans hpeers.symm⟩
  · exact hpeers.trans (by decide)
  · rw [hanswer]
    decide

end Kademlia.Table
