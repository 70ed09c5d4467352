/-
  Kademlia/Proofs/Selection.lean
  ==============================
  **A closest-set is a sorted list, cut off at its capacity.**

  `byDistance` sorts peers by their distance from a target and keeps the order of
  those at the same distance.  A peer that is offered last goes behind all that
  are no farther away (`byDistance_append_singleton`); a closest-set does the same
  with the part of the list that it keeps, and forgets nothing that could come
  back (`take_place`).  So after any offers it holds the front of the sorted list.
-/
import Kademlia.Proofs.Metric
import Kademlia.Table.Closest
import Mathlib.Data.List.Sort
import Mathlib.Data.List.Induction

namespace Kademlia

/-! ### Peers in the order of their distance -/

def NoFarther (x : NodeId) (p q : Peer) : Prop :=
  p.id.distance x ≤ q.id.distance x

instance decidableNoFarther (x : NodeId) : DecidableRel (NoFarther x) := fun p q =>
  inferInstanceAs (Decidable (p.id.distance x ≤ q.id.distance x))

theorem noFarther_iff {x : NodeId} {p q : Peer} :
    NoFarther x p q ↔ (p.id.distance x).toNat ≤ (q.id.distance x).toNat :=
  Distance.le_iff

instance total_noFarther (x : NodeId) : Std.Total (NoFarther x) where
  total p q := by
    rw [noFarther_iff, noFarther_iff]
    exact Nat.le_total _ _

instance isTrans_noFarther (x : NodeId) : IsTrans Peer (NoFarther x) where
  trans p q r hpq hqr := by
    rw [noFarther_iff] at hpq hqr ⊢
    exact hpq.trans hqr

/-- Whoever shares more leading bits with the target is no farther from it. -/
theorem noFarther_of_sharedBits_lt {x : NodeId} {p q : Peer}
    (h : q.id.sharedBits x < p.id.sharedBits x) : NoFarther x p q := by
  rw [noFarther_iff]
  exact (Distance.lt_iff.mp (NodeId.distance_lt_of_sharedBits_lt h)).le

/-- Peers sorted by their distance from a target; those at the same distance keep
    their order. -/
def byDistance (x : NodeId) (ps : List Peer) : List Peer :=
  ps.insertionSort (NoFarther x)

theorem byDistance_perm (x : NodeId) (ps : List Peer) : (byDistance x ps).Perm ps :=
  List.perm_insertionSort (NoFarther x) ps

theorem pairwise_byDistance (x : NodeId) (ps : List Peer) :
    (byDistance x ps).Pairwise (NoFarther x) :=
  List.pairwise_insertionSort (NoFarther x) ps

/-! ### The place of the last peer -/

/-- A peer in its place: behind everyone up to the first who is farther away. -/
def place (x : NodeId) (p : Peer) (ps : List Peer) : List Peer :=
  ps.takeWhile (NoFarther x · p) ++ p :: ps.dropWhile (NoFarther x · p)

theorem place_cons_of_noFarther {x : NodeId} {p q : Peer} (h : NoFarther x q p)
    (ps : List Peer) : place x p (q :: ps) = q :: place x p ps := by
  simp [place, h]

theorem place_cons_of_not {x : NodeId} {p q : Peer} (h : ¬ NoFarther x q p)
    (ps : List Peer) : place x p (q :: ps) = p :: q :: ps := by
  simp [place, h]

/-- It does not matter whether a peer is put in front of its equals before or after
    another one is put behind its own. -/
theorem place_orderedInsert (x : NodeId) (p q : Peer) (ps : List Peer) :
    place x p (ps.orderedInsert (NoFarther x) q) =
      (place x p ps).orderedInsert (NoFarther x) q := by
  induction ps with
  | nil =>
    by_cases hqp : NoFarther x q p
    · simp [place, hqp]
    · simp [place, hqp]
  | cons r ps ih =>
    by_cases hrp : NoFarther x r p
    · rw [place_cons_of_noFarther hrp]
      by_cases hqr : NoFarther x q r
      · have hqp : NoFarther x q p := trans_of (NoFarther x) hqr hrp
        rw [List.orderedInsert_cons_of_le _ _ hqr, List.orderedInsert_cons_of_le _ _ hqr,
          place_cons_of_noFarther hqp, place_cons_of_noFarther hrp]
      · rw [List.orderedInsert_of_not_le _ _ hqr, List.orderedInsert_of_not_le _ _ hqr,
          place_cons_of_noFarther hrp, ih]
    · rw [place_cons_of_not hrp]
      have hpr : NoFarther x p r := (total_of (NoFarther x) r p).resolve_left hrp
      by_cases hqp : NoFarther x q p
      · have hqr : NoFarther x q r := trans_of (NoFarther x) hqp hpr
        rw [List.orderedInsert_cons_of_le _ _ hqr, List.orderedInsert_cons_of_le _ _ hqp,
          place_cons_of_noFarther hqp, place_cons_of_not hrp]
      · rw [List.orderedInsert_of_not_le _ _ hqp]
        by_cases hqr : NoFarther x q r
        · rw [List.orderedInsert_cons_of_le _ _ hqr, place_cons_of_not hqp]
        · rw [List.orderedInsert_of_not_le _ _ hqr, place_cons_of_not hrp]

/-- A peer that arrives last is sorted behind its equals. -/
theorem byDistance_append_singleton (x : NodeId) (ps : List Peer) (p : Peer) :
    byDistance x (ps ++ [p]) = place x p (byDistance x ps) := by
  induction ps with
  | nil => rfl
  | cons q ps ih =>
    change (byDistance x (ps ++ [p])).orderedInsert (NoFarther x) q = _
    rw [ih, ← place_orderedInsert]
    rfl

theorem take_place (x : NodeId) (p : Peer) (ps : List Peer) (c : Nat) :
    (place x p (ps.take c)).take c = (place x p ps).take c := by
  induction ps generalizing c with
  | nil => rw [List.take_nil]
  | cons q ps ih =>
    cases c with
    | zero => rfl
    | succ c =>
      rw [List.take_succ_cons]
      by_cases hqp : NoFarther x q p
      · rw [place_cons_of_noFarther hqp, place_cons_of_noFarther hqp, List.take_succ_cons,
          List.take_succ_cons, ih]
      · rw [place_cons_of_not hqp, place_cons_of_not hqp, List.take_succ_cons,
          List.take_succ_cons]
        cases c with
        | zero => rfl
        | succ c =>
          rw [List.take_succ_cons, List.take_succ_cons, List.take_take,
            Nat.min_eq_left (Nat.le_succ c)]

/-! ### Offers -/

namespace ClosestSet

def entry (x : NodeId) (p : Peer) : ClosestEntry :=
  ⟨p, p.id.distance x⟩

def keeping (x : NodeId) (c : Nat) (ps : List Peer) : ClosestSet :=
  ⟨x, c, ps.map (entry x)⟩

theorem peers_keeping (x : NodeId) (c : Nat) (ps : List Peer) : (keeping x c ps).peers = ps := by
  rw [peers, keeping, List.map_map]
  exact List.map_id ps

/-- An offer is accepted if there are fewer than `c` peers that are no farther away. -/
theorem offer_keeping (x : NodeId) (c : Nat) (ps : List Peer) (p : Peer) :
    (keeping x c ps).offer p =
      if c ≤ (ps.takeWhile (NoFarther x · p)).length then (false, keeping x c ps)
      else (true, keeping x c ((place x p ps).take c)) := by
  have htake : (ps.map (entry x)).takeWhile (·.distance ≤ p.id.distance x) =
      (ps.takeWhile (NoFarther x · p)).map (entry x) := List.takeWhile_map
  have hdrop : (ps.map (entry x)).dropWhile (·.distance ≤ p.id.distance x) =
      (ps.dropWhile (NoFarther x · p)).map (entry x) := List.dropWhile_map
  have hplace : (ps.takeWhile (NoFarther x · p)).map (entry x) ++
      entry x p :: (ps.dropWhile (NoFarther x · p)).map (entry x) =
        (place x p ps).map (entry x) := by
    rw [place, List.map_append, List.map_cons]
  change (if c ≤ ((ps.map (entry x)).takeWhile (·.distance ≤ p.id.distance x)).length then
      (false, keeping x c ps)
    else (true, ⟨x, c, ((ps.map (entry x)).takeWhile (·.distance ≤ p.id.distance x) ++
      entry x p :: (ps.map (entry x)).dropWhile (·.distance ≤ p.id.distance x)).take c⟩)) = _
  rw [htake, hdrop, hplace, List.length_map, keeping, keeping, List.map_take]

/-- Accepted or not, what is kept afterwards is the front of the list with the peer
    in its place. -/
theorem offer_keeping_snd (x : NodeId) (c : Nat) (ps : List Peer) (hlen : ps.length ≤ c)
    (p : Peer) : ((keeping x c ps).offer p).2 = keeping x c ((place x p ps).take c) := by
  rw [offer_keeping]
  split
  · next hfull =>
    -- everyone who is kept is no farther away, and there is no room
    have hprefix := List.takeWhile_append_dropWhile (p := (NoFarther x · p)) (l := ps)
    have hcount := congrArg List.length hprefix
    rw [List.length_append] at hcount
    have hall : ps.takeWhile (NoFarther x · p) = ps := by
      have hnil : ps.dropWhile (NoFarther x · p) = [] :=
        List.length_eq_zero_iff.mp (by omega)
      rwa [hnil, List.append_nil] at hprefix
    rw [place, hall, List.take_append_of_le_length (by omega), List.take_of_length_le hlen]
  · rfl

/-- **Selection.**  After any offers a set holds the front of the sorted list of the
    peers offered. -/
theorem extend_withCapacity (x : NodeId) (c : Nat) (ps : List Peer) :
    (withCapacity x c).extend ps = keeping x c ((byDistance x ps).take c) := by
  induction ps using List.reverseRecOn with
  | nil => simp [extend, withCapacity, keeping, byDistance]
  | append_singleton ps p ih =>
    have hlen : ((byDistance x ps).take c).length ≤ c := by
      rw [List.length_take]
      omega
    calc (withCapacity x c).extend (ps ++ [p])
        = (((withCapacity x c).extend ps).offer p).2 := by
          rw [extend, List.foldl_append]
          rfl
      _ = keeping x c ((place x p ((byDistance x ps).take c)).take c) := by
          rw [ih, offer_keeping_snd x c _ hlen]
      _ = keeping x c ((byDistance x (ps ++ [p])).take c) := by
          rw [take_place, byDistance_append_singleton]

end ClosestSet

/-- Gathering sorts all peers of a table and keeps the first eight. -/
theorem Table.gatherClosest_eq (t : Table) (x : NodeId) :
    t.gatherClosest x = (byDistance x t.peers).take 8 := by
  change ((ClosestSet.withCapacity x 8).extend t.peers).peers = _
  rw [ClosestSet.extend_withCapacity, ClosestSet.peers_keeping]

end Kademlia
