/-
  Kademlia/Proofs/Offers.lean
  ===========================
  **What a closest-set holds after any offers.**

  The same peer may be offered twice, and different peers may be equally far away, so
  an offer is known by its number (`Arrival`).  A `ranking` has the nearer arrivals
  first and, of those at the same distance, the earlier one; no two arrivals are
  level, which leaves only one such order.

  A set holds the front of the ranking of all peers it was offered
  (`selects_feed`).  Whether a new peer comes among them can be told without the set,
  from the number of peers offered before that are no farther away
  (`mem_take_ranking_append_singleton`).  Which capacities a set can have is a matter of
  the room that is reserved for its entries (`withCapacity?_eq_ok_iff`).
-/
import Kademlia.Proofs.Run
import Kademlia.Proofs.Selection

namespace Kademlia

/-! ### Arrivals in the order of their rank -/

/-- A peer with the number of peers that were offered before it. -/
abbrev Arrival := Peer × Nat

section Ranking

variable {x : NodeId} {a b : Arrival}

/-- Nearer to the target, or as near and earlier. -/
def Ahead (x : NodeId) (a b : Arrival) : Prop :=
  a.1.id.distance x < b.1.id.distance x ∨
    a.1.id.distance x = b.1.id.distance x ∧ a.2 < b.2

instance decidableAhead (x : NodeId) : DecidableRel (Ahead x) := fun a b =>
  inferInstanceAs (Decidable (a.1.id.distance x < b.1.id.distance x ∨
    a.1.id.distance x = b.1.id.distance x ∧ a.2 < b.2))

theorem ahead_iff : Ahead x a b ↔
    (a.1.id.distance x).toNat < (b.1.id.distance x).toNat ∨
      (a.1.id.distance x).toNat = (b.1.id.distance x).toNat ∧ a.2 < b.2 := by
  simp only [Ahead, Distance.lt_iff, Distance.toNat_eq_iff]

/-- The earlier of two arrivals is ahead of the other unless that one is nearer. -/
theorem ahead_iff_noFarther (h : a.2 < b.2) : Ahead x a b ↔ NoFarther x a.1 b.1 := by
  simp only [ahead_iff, noFarther_iff, h, and_true, Nat.le_iff_lt_or_eq]

theorem Ahead.noFarther (h : Ahead x a b) : NoFarther x a.1 b.1 := by
  simp only [ahead_iff, noFarther_iff] at h ⊢
  omega

theorem Ahead.of_not_noFarther (h : ¬ NoFarther x a.1 b.1) : Ahead x b a := by
  simp only [ahead_iff, noFarther_iff] at h ⊢
  omega

theorem Ahead.asymm (h : Ahead x a b) : ¬ Ahead x b a := by
  simp only [ahead_iff] at h ⊢
  omega

theorem not_ahead_self (x : NodeId) (a : Arrival) : ¬ Ahead x a a := fun h => h.asymm h

/-- All arrivals, the nearest one first. -/
def ranking (x : NodeId) (ps : List Peer) : List Arrival :=
  ps.zipIdx.insertionSort fun a b => NoFarther x a.1 b.1

theorem ranking_perm (x : NodeId) (ps : List Peer) : (ranking x ps).Perm ps.zipIdx :=
  List.perm_insertionSort _ ps.zipIdx

theorem map_fst_ranking (x : NodeId) (ps : List Peer) :
    (ranking x ps).map Prod.fst = byDistance x ps := by
  have hmap := List.map_insertionSort (fun a b : Arrival => NoFarther x a.1 b.1) (NoFarther x)
    Prod.fst ps.zipIdx (fun _ _ _ _ => Iff.rfl)
  rw [ranking, hmap, List.zipIdx_map_fst, byDistance]

/-- An arrival that is earlier than all others is put in front of its equals. -/
theorem pairwise_orderedInsert {as : List Arrival} (h : as.Pairwise (Ahead x))
    (hearlier : ∀ b ∈ as, a.2 < b.2) :
    (as.orderedInsert (fun a b => NoFarther x a.1 b.1) a).Pairwise (Ahead x) := by
  induction as with
  | nil => exact List.pairwise_singleton (Ahead x) a
  | cons b as ih =>
    obtain ⟨hb, has⟩ := List.pairwise_cons.mp h
    obtain ⟨hab, hlater⟩ := List.forall_mem_cons.mp hearlier
    by_cases hnear : NoFarther x a.1 b.1
    · rw [List.orderedInsert_cons_of_le (fun a b => NoFarther x a.1 b.1) as hnear]
      refine List.pairwise_cons.mpr ⟨?_, h⟩
      intro d hd
      rw [ahead_iff_noFarther (hearlier d hd)]
      rcases List.mem_cons.mp hd with rfl | hmem
      · exact hnear
      · exact trans_of (NoFarther x) hnear (hb d hmem).noFarther
    · rw [List.orderedInsert_of_not_le (fun a b => NoFarther x a.1 b.1) as hnear]
      refine List.pairwise_cons.mpr ⟨?_, ih has hlater⟩
      intro d hd
      rcases List.mem_orderedInsert _ |>.mp hd with rfl | hmem
      · exact .of_not_noFarther hnear
      · exact hb d hmem

/-- Sorting by distance leaves the arrivals at one distance in their order. -/
theorem pairwise_ranking (x : NodeId) (ps : List Peer) : (ranking x ps).Pairwise (Ahead x) := by
  unfold ranking
  generalize 0 = n
  induction ps generalizing n with
  | nil => exact List.Pairwise.nil
  | cons p ps ih =>
    rw [List.zipIdx_cons, List.insertionSort_cons]
    apply pairwise_orderedInsert (ih (n + 1))
    intro b hb
    exact List.le_snd_of_mem_zipIdx ((List.mem_insertionSort _).mp hb)

/-! ### The rank of an arrival -/

/-- The rank of an arrival is the number of those that are ahead of it. -/
theorem mem_take_iff_countP_lt {as : List Arrival} (h : as.Pairwise (Ahead x)) (hmem : a ∈ as)
    (c : Nat) : a ∈ as.take c ↔ as.countP (Ahead x · a) < c := by
  induction as generalizing c with
  | nil => cases hmem
  | cons b as ih =>
    obtain ⟨hb, has⟩ := List.pairwise_cons.mp h
    cases c with
    | zero => simp only [List.take_zero, List.not_mem_nil, Nat.not_lt_zero]
    | succ c =>
      rw [List.take_succ_cons, List.mem_cons]
      rcases List.mem_cons.mp hmem with rfl | hlater
      · -- nobody is ahead of the first
        have hnone : (a :: as).countP (Ahead x · a) = 0 := by
          simp only [List.countP_eq_zero, List.forall_mem_cons, decide_eq_true_eq]
          exact ⟨not_ahead_self x a, fun d hd => (hb d hd).asymm⟩
        simp only [hnone, true_or, Nat.zero_lt_succ]
      · have hne : a ≠ b := by
          rintro rfl
          exact not_ahead_self x a (hb a hlater)
        have hahead : Ahead x b a := hb a hlater
        simp only [hne, false_or, ih has hlater, List.countP_cons, hahead, decide_true, if_true,
          Nat.succ_lt_succ_iff]

/-- The last arrival is behind all peers that are no farther away. -/
theorem mem_take_ranking_append_singleton (x : NodeId) (ps : List Peer) (p : Peer) (c : Nat) :
    (p, ps.length) ∈ (ranking x (ps ++ [p])).take c ↔ ps.countP (NoFarther x · p) < c := by
  have hperm := ranking_perm x (ps ++ [p])
  rw [List.zipIdx_append, List.zipIdx_singleton, Nat.zero_add] at hperm
  have hmem : (p, ps.length) ∈ ranking x (ps ++ [p]) := by
    rw [hperm.mem_iff, List.mem_append, List.mem_singleton]
    exact .inr rfl
  have hearlier : ps.zipIdx.countP (Ahead x · (p, ps.length)) =
      ps.zipIdx.countP ((NoFarther x · p) ∘ Prod.fst) := by
    apply List.countP_congr
    intro b hb
    have hlt : b.2 < ps.length := List.snd_lt_of_mem_zipIdx hb
    simp only [Function.comp_apply, decide_eq_true_eq]
    exact ahead_iff_noFarther hlt
  have hcount : (ranking x (ps ++ [p])).countP (Ahead x · (p, ps.length)) =
      ps.countP (NoFarther x · p) := by
    rw [hperm.countP_eq, List.countP_append, hearlier, ← List.countP_map, List.zipIdx_map_fst]
    simp only [List.countP_singleton, not_ahead_self, decide_false, Bool.false_eq_true, if_false,
      Nat.add_zero]
  rw [mem_take_iff_countP_lt (pairwise_ranking x (ps ++ [p])) hmem, hcount]

end Ranking

/-! ### The place where a sorted list is parted -/

section Parting

variable {α : Type} {q : α → Bool} {l : List α} {i : Nat}

/-- A place of a list with all those that pass a test before it and all others behind
    it.  Where there is one, a search by halves finds it. -/
structure Parts (q : α → Bool) (l : List α) (i : Nat) : Prop where
  le_length : i ≤ l.length
  before : ∀ a ∈ l.take i, q a = true
  behind : ∀ a ∈ l.drop i, ¬ q a = true

theorem Parts.eq_countP (h : Parts q l i) : i = l.countP q := by
  have hbefore : (l.take i).countP q = i := by
    rw [List.countP_eq_length.mpr h.before, List.length_take_of_le h.le_length]
  have hbehind : (l.drop i).countP q = 0 := List.countP_eq_zero.mpr h.behind
  calc i = (l.take i).countP q + (l.drop i).countP q := by rw [hbefore, hbehind, Nat.add_zero]
    _ = l.countP q := by rw [← List.countP_append, List.take_append_drop]

/-- A sorted list is parted at the end of its front that passes. -/
theorem parts_takeWhile (h : l.Pairwise fun a b => q b = true → q a = true) :
    Parts q l (l.takeWhile q).length := by
  induction l with
  | nil =>
    constructor
    · exact Nat.le_refl 0
    · exact List.forall_mem_nil _
    · exact List.forall_mem_nil _
  | cons a l ih =>
    obtain ⟨ha, hl⟩ := List.pairwise_cons.mp h
    by_cases hq : q a = true
    · obtain ⟨hle, hbefore, hbehind⟩ := ih hl
      rw [List.takeWhile_cons_of_pos hq]
      constructor
      · exact Nat.succ_le_succ hle
      · exact List.forall_mem_cons.mpr ⟨hq, hbefore⟩
      · exact hbehind
    · rw [List.takeWhile_cons_of_neg hq]
      constructor
      · exact Nat.zero_le _
      · exact List.forall_mem_nil _
      · exact List.forall_mem_cons.mpr ⟨hq, fun b hb hqb => hq (ha b hb hqb)⟩

theorem length_takeWhile_of_pairwise (h : l.Pairwise fun a b => q b = true → q a = true) :
    (l.takeWhile q).length = l.countP q :=
  (parts_takeWhile h).eq_countP

theorem parts_iff (h : l.Pairwise fun a b => q b = true → q a = true) :
    Parts q l i ↔ i = (l.takeWhile q).length := by
  constructor
  · exact fun hparts => hparts.eq_countP.trans (length_takeWhile_of_pairwise h).symm
  · rintro rfl
    exact parts_takeWhile h

end Parting

/-! ### Offers -/

namespace ClosestSet

/-- Peers that are offered one at a time or as a list. -/
inductive Offering where
  | one (peer : Peer)
  | many (peers : List Peer)
deriving DecidableEq, Repr

def Offering.peers : Offering → List Peer
  | one p => [p]
  | many ps => ps

/-- Everyone offered, in order. -/
def offered (os : List Offering) : List Peer :=
  os.flatMap Offering.peers

def receive (s : ClosestSet) : Offering → ClosestSet
  | .one p => (s.offer p).2
  | .many ps => s.extend ps

def feed (s : ClosestSet) (os : List Offering) : ClosestSet :=
  os.foldl receive s

theorem feed_append_one (s : ClosestSet) (os : List Offering) (p : Peer) :
    s.feed (os ++ [.one p]) = ((s.feed os).offer p).2 := by
  rw [feed, List.foldl_append]
  rfl

theorem offered_append_one (os : List Offering) (p : Peer) :
    offered (os ++ [.one p]) = offered os ++ [p] :=
  List.flatMap_append

/-- It makes no difference how the peers are offered. -/
theorem feed_eq_extend (s : ClosestSet) (os : List Offering) :
    s.feed os = s.extend (offered os) := by
  induction os generalizing s with
  | nil => rfl
  | cons o os ih =>
    have hreceive : s.receive o = s.extend o.peers := by
      cases o with
      | one p => rfl
      | many ps => rfl
    calc s.feed (o :: os) = (s.extend o.peers).extend (offered os) := by
          rw [← hreceive, ← ih]
          rfl
      _ = s.extend (offered (o :: os)) := by
          simp only [extend, offered, List.flatMap_cons, List.foldl_append]

/-- What a set with room for `c` peers holds when it was offered `ps`. -/
structure Selects (x : NodeId) (c : Nat) (ps : List Peer) (s : ClosestSet) : Prop where
  target : s.target = x
  capacity : s.capacity = c
  entries : s.entries = ((ranking x ps).take c).map fun a => ⟨a.1, a.1.id.distance x⟩
  peers : s.peers = ((ranking x ps).take c).map Prod.fst
  size : s.size = min c ps.length
  isFull : s.isFull = true ↔ min c ps.length = c
  farthest? : s.farthest? = ((ranking x ps).take c).getLast?.map fun a => a.1.id.distance x
  /-- There is a place for any distance, and it is found by looking from the front. -/
  parts : ∀ (d : Distance) (i : Nat), Parts (fun e : ClosestEntry => e.distance ≤ d) s.entries i ↔
    i = (s.entries.takeWhile (·.distance ≤ d)).length

/-- In a sorted list those within a distance come before those beyond it. -/
theorem pairwise_within (x : NodeId) (ps : List Peer) (d : Distance) :
    (byDistance x ps).Pairwise fun p q =>
      decide (q.id.distance x ≤ d) = true → decide (p.id.distance x ≤ d) = true := by
  refine (pairwise_byDistance x ps).imp ?_
  intro p q hpq hq
  simp only [decide_eq_true_eq, Distance.le_iff] at hq ⊢
  exact (noFarther_iff.mp hpq).trans hq

theorem selects_keeping (x : NodeId) (c : Nat) (ps : List Peer) :
    Selects x c ps (keeping x c ((byDistance x ps).take c)) where
  target := rfl
  capacity := rfl
  entries := by
    simp only [keeping, ← map_fst_ranking, ← List.map_take, List.map_map]
    rfl
  peers := by rw [peers_keeping, ← map_fst_ranking, List.map_take]
  size := by
    simp only [keeping, size, List.length_map, List.length_take, (byDistance_perm x ps).length_eq]
  isFull := by
    simp only [isFull, keeping, size, List.length_map, List.length_take,
      (byDistance_perm x ps).length_eq, decide_eq_true_eq]
    omega
  farthest? := by
    simp only [farthest?, keeping, ← map_fst_ranking, ← List.map_take, List.map_map,
      List.getLast?_map, Option.map_map]
    rfl
  parts := fun d i => parts_iff (List.pairwise_map.mpr (pairwise_within x ps d).take)

theorem selects_feed (x : NodeId) (c : Nat) (os : List Offering) :
    Selects x c (offered os) ((withCapacity x c).feed os) := by
  rw [feed_eq_extend, extend_withCapacity]
  exact selects_keeping x c (offered os)

/-- The peers that were left out need not be remembered: if `c` of all peers are no
    farther away, then `c` of those kept are. -/
theorem offer_accepts_iff (x : NodeId) (c : Nat) (ps : List Peer) (p : Peer) :
    (((withCapacity x c).extend ps).offer p).1 = true ↔ ps.countP (NoFarther x · p) < c := by
  have hcount : ((byDistance x ps).takeWhile (NoFarther x · p)).length =
      (byDistance x ps).countP (NoFarther x · p) :=
    length_takeWhile_of_pairwise (pairwise_within x ps (p.id.distance x))
  have hnearer : (((byDistance x ps).take c).takeWhile (NoFarther x · p)).length =
      min c (ps.countP (NoFarther x · p)) := by
    rw [← List.take_takeWhile, List.length_take, hcount, (byDistance_perm x ps).countP_eq]
  rw [extend_withCapacity, offer_keeping, hnearer]
  split
  · next hfull =>
    simp only [Bool.false_eq_true, false_iff, Nat.not_lt]
    exact (Nat.le_min.mp hfull).2
  · next hroom =>
    simp only [true_iff]
    omega

/-! ### Sets that can be made -/

/-- The bytes of the entries decide.  A number of entries that is no word has too many
    bytes all the more. -/
theorem withCapacity?_eq_ok_iff {x : NodeId} {c : Nat} {s : ClosestSet} :
    withCapacity? x c = .ok s ↔
      (c + 1) * entryBytes ≤ reservableBytes ∧ s = withCapacity x c := by
  unfold withCapacity?
  by_cases hroom : (c + 1) * entryBytes ≤ reservableBytes
  · have hword : ¬ wordCount ≤ c + 1 := by
      simp only [entryBytes, reservableBytes, wordCount] at hroom ⊢
      omega
    simp only [hword, Nat.not_lt.mpr hroom, hroom, if_false, true_and, Except.ok.injEq]
    exact eq_comm
  · simp only [hroom, false_and, iff_false]
    split
    · exact nofun
    · rw [if_pos (Nat.not_le.mp hroom)]
      exact nofun

/-- There is always room for as many peers as a bucket has slots. -/
theorem withCapacity?_bucketCapacity (x : NodeId) :
    withCapacity? x bucketCapacity = .ok (new x) := rfl

/-- **Offers.**  A set can be made for every capacity at which one more entry than that
    can be reserved, and for no other.  After any offers, one at a time or in lists, it
    holds the front of the ranking of all peers offered, each with its own distance; the
    ranking has the nearer first, and at the same distance the earlier.  A peer is
    accepted if and only if it comes into that front, which is to say that fewer than `c`
    of the peers before it are no farther away. -/
theorem offers_exact (x : NodeId) (c : Nat) (os : List Offering) :
    ((∃ s, withCapacity? x c = .ok s) ↔ (c + 1) * entryBytes ≤ reservableBytes) ∧
    ∀ s, withCapacity? x c = .ok s →
      (ranking x (offered os)).Perm (offered os).zipIdx ∧
      (ranking x (offered os)).Pairwise (Ahead x) ∧
      Selects x c (offered os) (s.feed os) ∧
      ∀ p : Peer,
        (((s.feed os).offer p).1 = true ↔
          (p, (offered os).length) ∈ (ranking x (offered os ++ [p])).take c) ∧
        (((s.feed os).offer p).1 = true ↔
          (offered os).countP (fun q => q.id.distance x ≤ p.id.distance x) < c) ∧
        Selects x c (offered os ++ [p]) ((s.feed os).offer p).2 := by
  constructor
  · simp only [withCapacity?_eq_ok_iff, exists_and_left, exists_eq, and_true]
  intro s hs
  obtain ⟨-, rfl⟩ := withCapacity?_eq_ok_iff.mp hs
  refine ⟨ranking_perm x _, pairwise_ranking x _, selects_feed x c os, ?_⟩
  intro p
  have haccepts : (((withCapacity x c).feed os).offer p).1 = true ↔
      (offered os).countP (NoFarther x · p) < c := by
    rw [feed_eq_extend]
    exact offer_accepts_iff x c (offered os) p
  refine ⟨?_, haccepts, ?_⟩
  · rw [haccepts, mem_take_ranking_append_singleton]
  · rw [← feed_append_one, ← offered_append_one]
    exact selects_feed x c (os ++ [.one p])

/-- Room for two, and a peer that comes again and again behind a farther one: its first two
    records stay, and the third finds them in its place.  The second capacity is the greatest
    for which there is room. -/
theorem offers_exact_ties :
    (∃ s, withCapacity? .zero 2 = .ok s ∧
      (s.feed [.one (neighbour 0), .many [neighbour 9, (neighbour 9).markReply 1]]).peers =
        [neighbour 9, (neighbour 9).markReply 1] ∧
      ¬ ((s.feed [.one (neighbour 0), .many [neighbour 9, (neighbour 9).markReply 1]]).offer
        ((neighbour 9).markReply 2)).1 = true) ∧
    ∃ s, withCapacity? .zero 288230376151711742 = .ok s := by
  have hties := offers_exact .zero 2
    [.one (neighbour 0), .many [neighbour 9, (neighbour 9).markReply 1]]
  have hgreatest := offers_exact .zero 288230376151711742 []
  obtain ⟨s, hs⟩ := hties.1.mpr (by decide)
  obtain ⟨-, -, hselects, haccepts⟩ := hties.2 s hs
  obtain ⟨-, hcount, -⟩ := haccepts ((neighbour 9).markReply 2)
  refine ⟨⟨s, hs, hselects.peers.trans (by decide), ?_⟩, hgreatest.1.mpr (by decide)⟩
  rw [hcount]
  decide

/-- There is no set with half as many places as there are machine words, and so none that
    would hold the one peer that it is offered. -/
theorem not_selects_of_huge_capacity :
    withCapacity? .zero 9223372036854775808 = .error (.bytes 9223372036854775809) ∧
      ¬ ∃ s, withCapacity? .zero 9223372036854775808 = .ok s ∧
        Selects .zero 9223372036854775808 (offered [.one (neighbour 0)])
          (s.feed [.one (neighbour 0)]) := by
  have herror : withCapacity? .zero 9223372036854775808 =
      .error (.bytes 9223372036854775809) := rfl
  refine ⟨herror, ?_⟩
  rintro ⟨s, hs, -⟩
  rw [herror] at hs
  cases hs

end ClosestSet

end Kademlia
