/-
  Kademlia/Proofs/Gathering.lean
  ==============================
  **Gathering finds the closest peers, wherever they are stored.**

  The identifiers in a table are distinct, so no two of its peers are at the same
  distance from a target, and the sorted list of the peers ascends strictly
  (`WellFormed.pairwise_closer`).  What gathering keeps is its front: everybody
  behind the cut is farther away than everybody before it.

  The sorted list depends on who is stored and on nothing else, so two tables that
  hold the same peers answer alike, whatever their local identifiers and however
  their buckets came to be filled (`WellFormed.gatherClosest_congr`).
-/
import Kademlia.Proofs.Expansion

namespace Kademlia.Table

variable {t : Table}

/-! ### Strictly ascending distances -/

def Closer (x : NodeId) (p q : Peer) : Prop :=
  p.id.distance x < q.id.distance x

theorem closer_of_noFarther {x : NodeId} {p q : Peer} (h : NoFarther x p q) (hne : p.id ≠ q.id) :
    Closer x p q := by
  apply Distance.lt_iff.mpr
  apply Nat.lt_of_le_of_ne (noFarther_iff.mp h)
  intro heq
  exact hne (NodeId.distance_injective (Distance.toNat_injective heq))

theorem WellFormed.nodup_byDistance (ht : t.WellFormed) (x : NodeId) :
    ((byDistance x t.peers).map Peer.id).Nodup :=
  ((byDistance_perm x t.peers).map Peer.id).nodup_iff.mpr ht.distinct

theorem WellFormed.pairwise_closer (ht : t.WellFormed) (x : NodeId) :
    (byDistance x t.peers).Pairwise (Closer x) := by
  have hdistinct := List.pairwise_map.mp (ht.nodup_byDistance x)
  apply (pairwise_byDistance x t.peers).imp₂ _ hdistinct
  intro p q hpq hne
  exact closer_of_noFarther hpq hne

/-! ### Before and behind the cut -/

theorem gatherClosest_append_drop (t : Table) (x : NodeId) :
    t.gatherClosest x ++ (byDistance x t.peers).drop 8 = byDistance x t.peers := by
  rw [gatherClosest_eq, List.take_append_drop]

theorem gatherClosest_sublist (t : Table) (x : NodeId) :
    (t.gatherClosest x).Sublist (byDistance x t.peers) := by
  rw [gatherClosest_eq]
  exact List.take_sublist 8 _

theorem mem_peers_of_mem_gatherClosest {x : NodeId} {p : Peer} (hp : p ∈ t.gatherClosest x) :
    p ∈ t.peers :=
  (byDistance_perm x t.peers).mem_iff.mp ((t.gatherClosest_sublist x).subset hp)

theorem WellFormed.length_gatherClosest (ht : t.WellFormed) (x : NodeId) :
    (t.gatherClosest x).length = min 8 t.size := by
  rw [gatherClosest_eq, List.length_take, (byDistance_perm x t.peers).length_eq, ht.size_eq]

/-- Whoever is stored and not returned comes behind the cut. -/
theorem WellFormed.closer_of_left_out (ht : t.WellFormed) {x : NodeId} {p q : Peer}
    (hp : p ∈ t.gatherClosest x) (hq : q ∈ t.peers) (hout : q ∉ t.gatherClosest x) :
    Closer x p q := by
  have hsorted := ht.pairwise_closer x
  have hmem := (byDistance_perm x t.peers).mem_iff.mpr hq
  rw [← t.gatherClosest_append_drop x] at hsorted hmem
  have hbehind := (List.mem_append.mp hmem).resolve_left hout
  exact (List.pairwise_append.mp hsorted).2.2 p hp q hbehind

/-! ### Other layouts -/

theorem WellFormed.gatherClosest_congr {t' : Table} (ht : t.WellFormed) (ht' : t'.WellFormed)
    (h : ∀ p, p ∈ t'.peers ↔ p ∈ t.peers) (x : NodeId) :
    t'.gatherClosest x = t.gatherClosest x := by
  have hperm : t'.peers.Perm t.peers :=
    (List.perm_ext_iff_of_nodup ht'.nodup_peers ht.nodup_peers).mpr h
  have hsame : byDistance x t'.peers = byDistance x t.peers :=
    ht.eq_byDistance ((byDistance_perm x t'.peers).trans hperm) (pairwise_byDistance x t'.peers)
  rw [gatherClosest_eq, gatherClosest_eq, hsame]

/-- **Gathering is exact.**  In every table that can come about, and for every target,
    gathering gives as many peers as there are, up to eight, each of them once, from
    the closest to the farthest; whoever is left out is farther away than all of
    them.  Any other table with the same peers gives the same list. -/
theorem gatherClosest_exact (h : t.Reachable) (x : NodeId) :
    (t.gatherClosest x).length = min 8 t.size ∧
      (∀ p ∈ t.gatherClosest x, p ∈ t.peers) ∧
      ((t.gatherClosest x).map Peer.id).Nodup ∧
      (t.gatherClosest x).Pairwise (fun p q => p.id.distance x < q.id.distance x) ∧
      (∀ q ∈ t.peers, q ∉ t.gatherClosest x →
        ∀ p ∈ t.gatherClosest x, p.id.distance x < q.id.distance x) ∧
      ∀ t' : Table, t'.Reachable → (∀ p, p ∈ t'.peers ↔ p ∈ t.peers) →
        t'.gatherClosest x = t.gatherClosest x := by
  have ht := h.wellFormed
  have hsublist := t.gatherClosest_sublist x
  refine ⟨ht.length_gatherClosest x, ?_, ?_, ?_, ?_, ?_⟩
  · intro p hp
    exact mem_peers_of_mem_gatherClosest hp
  · exact (hsublist.map Peer.id).nodup (ht.nodup_byDistance x)
  · exact (ht.pairwise_closer x).sublist hsublist
  · intro q hq hout p hp
    exact ht.closer_of_left_out hp hq hout
  · intro t' ht' hsame
    exact ht.gatherClosest_congr ht'.wellFormed hsame x

/-- The peers of `neighbourhood`, seen from the opposite end of the identifiers: they
    arrive in the reverse order, and the split moves only the last of them. -/
def opposite : Table :=
  ((new NodeId.zero.invert).run
    ((List.range 9).reverse.map fun k => .insert (neighbour k) 0)).2

set_option maxRecDepth 4000 in
theorem gatherClosest_exact_opposite :
    neighbourhood.Reachable ∧ opposite.Reachable ∧
      (∀ p, p ∈ opposite.peers ↔ p ∈ neighbourhood.peers) ∧
      opposite.peers ≠ neighbourhood.peers ∧
      neighbour 0 ∈ neighbourhood.peers ∧ neighbour 0 ∉ neighbourhood.gatherClosest .zero ∧
      (neighbourhood.gatherClosest .zero).length = min 8 neighbourhood.size ∧
      opposite.gatherClosest .zero = neighbourhood.gatherClosest .zero := by
  have hopposite : opposite.Reachable := (Reachable.new _).run _
  have hsub : (∀ p ∈ opposite.peers, p ∈ neighbourhood.peers) ∧
      ∀ p ∈ neighbourhood.peers, p ∈ opposite.peers := by decide
  have hsame : ∀ p, p ∈ opposite.peers ↔ p ∈ neighbourhood.peers :=
    fun p => ⟨hsub.1 p, hsub.2 p⟩
  obtain ⟨hlen, -, -, -, -, hother⟩ := gatherClosest_exact reachable_neighbourhood .zero
  exact ⟨reachable_neighbourhood, hopposite, hsame, by decide, by decide, by decide, hlen,
    hother opposite hopposite hsame⟩

end Kademlia.Table
