/-
  Kademlia/Proofs/Migration.lean
  ==============================
  **Moving peers between two buckets.**

  A table only moves peers to a bucket that it has just made (`Bucket.migrate_empty`).  Here
  the destination may be any bucket: one that is full, one with free slots in between its
  peers, one with room for some of those who are to leave but not for all.

  `routes` says who goes where, without going through the two rows side by side: the first
  peer that is to leave gets the first vacant slot, the second one the second, until either
  the leavers or the vacant slots run out.  `Routed` says what rows are like after such a list
  of moves, and that nothing else is different.  Draining makes exactly the moves of `routes`
  (`drain_routed`).  This is an induction on the row; the invariant that carries it is that the
  slot which a peer is put into is the head of the vacancies, and that the tail is what is
  vacant afterwards (`vacancies_of_firstFree?`).
-/
import Kademlia.Proofs.BucketRun
import Kademlia.Proofs.ChangeTimes

namespace Kademlia

namespace Slots

variable {leaves : Peer → Bool} {p : Peer} {row row' dest dest' : Slots} {k : Nat}
  {moves : List (Nat × Nat)}

/-! ### Who goes where -/

/-- The free slots of a row, from the lowest up. -/
def vacancies (row : Slots) : List Nat :=
  row.findIdxs Option.isNone

/-- The slots of the peers that pass a test, from the lowest up. -/
def departures (leaves : Peer → Bool) (row : Slots) : List Nat :=
  row.findIdxs (Option.any leaves)

/-- The slots that peers leave, each with the slot that its peer goes to. -/
def routes (leaves : Peer → Bool) (row dest : Slots) : List (Nat × Nat) :=
  (departures leaves row).zip (vacancies dest)

/-- The same moves, from a row with one more slot in front. -/
def shifted (moves : List (Nat × Nat)) : List (Nat × Nat) :=
  moves.map (Prod.map (· + 1) id)

theorem length_shifted (moves : List (Nat × Nat)) : (shifted moves).length = moves.length :=
  List.length_map _

theorem mem_shifted {j k : Nat} : (j, k) ∈ shifted moves ↔ ∃ i, (i, k) ∈ moves ∧ i + 1 = j := by
  simp [shifted]

theorem map_fst_shifted (moves : List (Nat × Nat)) :
    (shifted moves).map Prod.fst = (moves.map Prod.fst).map (· + 1) := by
  simp [shifted]

theorem map_snd_shifted (moves : List (Nat × Nat)) :
    (shifted moves).map Prod.snd = moves.map Prod.snd := by
  simp [shifted]

theorem length_vacancies (row : Slots) : (vacancies row).length = row.countP Option.isNone :=
  List.length_findIdxs

theorem length_departures (leaves : Peer → Bool) (row : Slots) :
    (departures leaves row).length = (occupants row).countP leaves := by
  rw [departures, List.length_findIdxs, occupants, List.countP_filterMap]
  apply List.countP_congr
  intro slot _
  cases slot <;> exact Iff.rfl

theorem length_routes (leaves : Peer → Bool) (row dest : Slots) :
    (routes leaves row dest).length =
      min ((occupants row).countP leaves) (dest.countP Option.isNone) := by
  rw [routes, List.length_zip, length_departures, length_vacancies]

theorem vacancies_eq_nil (h : none ∉ row) : vacancies row = [] := by
  rw [vacancies, List.findIdxs_eq_nil_iff]
  intro slot hslot
  cases slot with
  | none => exact absurd hslot h
  | some p => rfl

/-- Whoever takes the first free slot leaves the other ones vacant. -/
theorem vacancies_of_firstFree? (h : firstFree? row = some k) (p : Peer) :
    vacancies row = k :: vacancies (row.set k (some p)) := by
  obtain ⟨ps, after, rfl, rfl⟩ := firstFree?_eq_some h
  have hnobody : (ps.map some).findIdxs Option.isNone = [] :=
    vacancies_eq_nil (by simp)
  have hset : (ps.map some ++ none :: after).set ps.length (some p) =
      ps.map some ++ some p :: after := by
    simp
  rw [hset]
  simp [vacancies, List.findIdxs_append, hnobody]

theorem departures_cons (leaves : Peer → Bool) (slot : Option Peer) (row : Slots) :
    departures leaves (slot :: row) =
      if slot.any leaves then 0 :: (departures leaves row).map (· + 1)
      else (departures leaves row).map (· + 1) := by
  rw [departures, List.findIdxs_cons, List.findIdxs_start, departures]

theorem routes_cons_of_stays {slot : Option Peer} (h : slot.any leaves = false)
    (row dest : Slots) : routes leaves (slot :: row) dest = shifted (routes leaves row dest) := by
  rw [routes, departures_cons, if_neg (by simp [h]), List.zip_map_left]
  rfl

theorem routes_cons_of_leaves (h : leaves p = true) (hk : firstFree? dest = some k)
    (row : Slots) :
    routes leaves (some p :: row) dest =
      (0, k) :: shifted (routes leaves row (dest.set k (some p))) := by
  have hany : (some p).any leaves = true := h
  rw [routes, departures_cons, if_pos hany, vacancies_of_firstFree? hk p, List.zip_cons_cons,
    List.zip_map_left]
  rfl

theorem routes_of_full (h : none ∉ dest) (leaves : Peer → Bool) (row : Slots) :
    routes leaves row dest = [] := by
  rw [routes, vacancies_eq_nil h, List.zip_nil_right]

/-- Nobody else goes to a slot that has been taken. -/
theorem not_mem_routes_of_taken (hk : firstFree? dest = some k) (p : Peer)
    (leaves : Peer → Bool) (row : Slots) :
    k ∉ (routes leaves row (dest.set k (some p))).map Prod.snd := by
  have hnodup : (vacancies dest).Nodup := List.nodup_findIdxs
  rw [vacancies_of_firstFree? hk p, List.nodup_cons] at hnodup
  intro hmem
  obtain ⟨⟨j, k⟩, hroute, rfl⟩ := List.mem_map.mp hmem
  exact hnodup.1 (List.of_mem_zip hroute).2

/-! ### What moves do to two rows -/

/-- What `row` and `dest` are like after some moves from the one to the other: a slot that
    was left is free, a slot that was gone to holds the peer from the other end of its move,
    and every other slot of either row is as it was. -/
structure Routed (moves : List (Nat × Nat)) (row dest row' dest' : Slots) : Prop where
  left : ∀ j k, (j, k) ∈ moves → row'[j]? = some none
  arrived : ∀ j k, (j, k) ∈ moves → dest'[k]? = row[j]?
  stayed : ∀ j, j ∉ moves.map Prod.fst → row'[j]? = row[j]?
  kept : ∀ k, k ∉ moves.map Prod.snd → dest'[k]? = dest[k]?

theorem Routed.nil (row dest : Slots) : Routed [] row dest row dest where
  left := by simp
  arrived := by simp
  stayed _ _ := rfl
  kept _ _ := rfl

theorem Routed.keep (h : Routed moves row dest row' dest') (slot : Option Peer) :
    Routed (shifted moves) (slot :: row) dest (slot :: row') dest' where
  left := by
    intro j k hjk
    obtain ⟨i, hik, rfl⟩ := mem_shifted.mp hjk
    exact h.left i k hik
  arrived := by
    intro j k hjk
    obtain ⟨i, hik, rfl⟩ := mem_shifted.mp hjk
    exact h.arrived i k hik
  stayed := by
    intro j hj
    cases j with
    | zero => rfl
    | succ j =>
      rw [map_fst_shifted] at hj
      exact h.stayed j fun hmem => hj (List.mem_map_of_mem hmem)
  kept := by
    rw [map_snd_shifted]
    exact h.kept

/-- The peer in front goes first, to slot `k`, and the others go where it does not. -/
theorem Routed.leave (h : Routed moves row (dest.set k (some p)) row' dest')
    (hk : dest[k]? = some none) (htaken : k ∉ moves.map Prod.snd) :
    Routed ((0, k) :: shifted moves) (some p :: row) dest (none :: row') dest' where
  left := by
    intro j l hjl
    rcases List.mem_cons.mp hjl with hfirst | hjl
    · obtain ⟨rfl, rfl⟩ := Prod.mk.inj hfirst
      rfl
    · obtain ⟨i, hil, rfl⟩ := mem_shifted.mp hjl
      exact h.left i l hil
  arrived := by
    intro j l hjl
    rcases List.mem_cons.mp hjl with hfirst | hjl
    · obtain ⟨rfl, rfl⟩ := Prod.mk.inj hfirst
      rw [h.kept l htaken]
      exact List.getElem?_set_self (List.getElem?_eq_some_iff.mp hk).1
    · obtain ⟨i, hil, rfl⟩ := mem_shifted.mp hjl
      exact h.arrived i l hil
  stayed := by
    intro j hj
    rw [List.map_cons, List.mem_cons, not_or, map_fst_shifted] at hj
    cases j with
    | zero => exact absurd rfl hj.1
    | succ j => exact h.stayed j fun hmem => hj.2 (List.mem_map_of_mem hmem)
  kept := by
    intro l hl
    rw [List.map_cons, List.mem_cons, not_or, map_snd_shifted] at hl
    rw [h.kept l hl.2]
    exact List.getElem?_set_ne (Ne.symm hl.1)

end Slots

namespace Bucket

open Slots

variable {source dest : Bucket}

/-! ### Draining -/

/-- A row is drained along its routes. -/
theorem drain_routed (leaves : Peer → Bool) (now : Time) (row : Slots) (hdest : dest.Counted) :
    Routed (routes leaves row dest.slots) row dest.slots (drain leaves now row dest).row
        (drain leaves now row dest).dest.slots ∧
      (drain leaves now row dest).moved = (routes leaves row dest.slots).length := by
  induction row generalizing dest with
  | nil => exact ⟨.nil [] dest.slots, rfl⟩
  | cons slot rest ih =>
    by_cases hfull : dest.isFull = true
    · rw [drain_of_full hfull, routes_of_full (hdest.isFull_iff_no_free.mp hfull)]
      exact ⟨.nil (slot :: rest) dest.slots, rfl⟩
    · cases slot with
      | none =>
        obtain ⟨hrouted, hmoved⟩ := ih hdest
        rw [routes_cons_of_stays rfl, length_shifted]
        exact ⟨hrouted.keep none, hmoved⟩
      | some p =>
        rcases hleaves : leaves p with _ | _
        · obtain ⟨hrouted, hmoved⟩ := ih hdest
          have hany : (some p).any leaves = false := hleaves
          rw [drain_of_stays hfull hleaves, routes_cons_of_stays hany, length_shifted]
          exact ⟨hrouted.keep (some p), hmoved⟩
        · -- the peer takes the first vacancy, and the rest of the row is drained to the others
          obtain ⟨dest', hadd⟩ := exists_add (hdest.length_lt_of_not_isFull hfull) p now
          obtain ⟨k, hk, hslots⟩ := add_place hadd
          obtain ⟨hrouted, hmoved⟩ := ih ((add_ok hadd).counted hdest)
          rw [hslots] at hrouted hmoved
          rw [drain_of_leaves hfull hleaves hadd, routes_cons_of_leaves hleaves hk,
            List.length_cons, length_shifted]
          exact ⟨hrouted.leave (firstFree?_place hk).1 (not_mem_routes_of_taken hk p leaves rest),
            congrArg (· + 1) hmoved⟩

theorem index_drain (leaves : Peer → Bool) (now : Time) (row : Slots) (dest : Bucket) :
    (drain leaves now row dest).dest.index = dest.index := by
  fun_induction drain leaves now row dest with
  | case1 => rfl
  | case2 rest dest ih => exact ih
  | case3 => rfl
  | case4 p rest dest hroom hleaves dest' hadd ih => exact ih.trans (add_ok hadd).index_eq
  | case5 => rfl
  | case6 p rest dest hroom hstays ih => exact ih

theorem perm_of_add {p : Peer} {now : Time} {dest' : Bucket} (h : dest.add p now = .ok dest') :
    dest'.peers.Perm (p :: dest.peers) := by
  obtain ⟨before, after, hdest, hdest'⟩ := (add_ok h).peers_split
  rw [hdest, hdest']
  simp

/-- A row and a bucket together have the same peers before and after. -/
theorem perm_drain (leaves : Peer → Bool) (now : Time) (row : Slots) (dest : Bucket) :
    (occupants (drain leaves now row dest).row ++ (drain leaves now row dest).dest.peers).Perm
      (occupants row ++ dest.peers) := by
  fun_induction drain leaves now row dest with
  | case1 => exact .refl _
  | case2 rest dest ih => exact ih
  | case3 => exact .refl _
  | case4 p rest dest hroom hleaves dest' hadd ih =>
    have harrived : (occupants rest ++ dest'.peers).Perm (occupants rest ++ p :: dest.peers) :=
      (perm_of_add hadd).append_left (occupants rest)
    exact (ih.trans harrived).trans List.perm_middle
  | case5 => exact .refl _
  | case6 p rest dest hroom hstays ih => exact ih.cons p

/-! ### Migrations -/

/-- What becomes of two buckets when those peers of the first that pass a test move to the
    second, as far as there is room for them. -/
structure Migrated (source dest : Bucket) (leaves : Peer → Bool) (now : Time)
    (m : Migration) : Prop where
  moved_eq : m.moved = min (source.peers.countP leaves) (dest.slots.countP Option.isNone)
  length_routes : (routes leaves source.slots dest.slots).length = m.moved
  routed : Routed (routes leaves source.slots dest.slots) source.slots dest.slots
    m.source.slots m.dest.slots
  perm : (m.source.peers ++ m.dest.peers).Perm (source.peers ++ dest.peers)
  index_source : m.source.index = source.index
  index_dest : m.dest.index = dest.index
  counted_source : m.source.Counted
  counted_dest : m.dest.Counted
  lastChanged_source :
    m.source.lastChanged = if 0 < m.moved then some now else source.lastChanged
  lastChanged_dest : m.dest.lastChanged = if 0 < m.moved then some now else dest.lastChanged

/-- **Migrations.**  No check of a migration between two counted buckets fails.  Of the peers
    that pass the test, those in the lowest slots move to the lowest free slots of the
    destination, one each; nothing else is different but for the counters and the times. -/
theorem migrate_exact (hsource : source.Counted) (hdest : dest.Counted) (leaves : Peer → Bool)
    (now : Time) :
    source.checkedMigrate dest leaves now = .ok (source.migrate dest leaves now) ∧
      Migrated source dest leaves now (source.migrate dest leaves now) := by
  obtain ⟨hrouted, hmoved⟩ := drain_routed leaves now source.slots hdest
  refine ⟨hsource.checkedMigrate_eq hdest leaves now, ?_⟩
  exact
    { moved_eq := hmoved.trans (length_routes leaves source.slots dest.slots)
      length_routes := hmoved.symm
      routed := hrouted
      perm := perm_drain leaves now source.slots dest
      index_source := rfl
      index_dest := index_drain leaves now source.slots dest
      counted_source := hsource.migrate_source dest leaves now
      counted_dest := hdest.drain_dest leaves now source.slots
      lastChanged_source := rfl
      lastChanged_dest := lastChanged_drain leaves now source.slots dest }

/-- The neighbours `k` to `k + 7`, two of whom have gone again. -/
def thinned (k gone gone' : Nat) : Bucket :=
  ((empty 0).run ((List.range' k 8).map (fun i => .add (neighbour i) 0) ++
    [.remove (neighbour gone).id, .remove (neighbour gone').id])).2

/-- Whether a peer shares an even number of bits with the identifier zero. -/
def evenly (p : Peer) : Bool :=
  NodeId.zero.sharedBits p.id % 2 = 0

set_option maxRecDepth 4000 in
/-- Three are to leave, and there is room for two.  They move to the two holes between the
    peers that are there already, and the third stays. -/
theorem migrate_exact_thinned :
    (thinned 0 0 5).Counted ∧ (thinned 8 9 12).Counted ∧
      Migrated (thinned 0 0 5) (thinned 8 9 12) evenly 3
        ((thinned 0 0 5).migrate (thinned 8 9 12) evenly 3) ∧
      routes evenly (thinned 0 0 5).slots (thinned 8 9 12).slots = [(2, 1), (4, 4)] ∧
      ((thinned 0 0 5).migrate (thinned 8 9 12) evenly 3).source.peers =
        [neighbour 1, neighbour 3, neighbour 6, neighbour 7] := by
  have hsource : (thinned 0 0 5).Counted := counted_run (counted_empty 0) _
  have hdest : (thinned 8 9 12).Counted := counted_run (counted_empty 0) _
  exact ⟨hsource, hdest, (migrate_exact hsource hdest evenly 3).2, by decide, by decide⟩

end Bucket

end Kademlia
