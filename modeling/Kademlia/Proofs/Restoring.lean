/-
  Kademlia/Proofs/Restoring.lean
  ==============================
  **A restored peer keeps its place.**

  Nobody in a table that is being restored was ever contacted (`Untouched`), and a peer that
  was never contacted is unknown at all times.  So no insertion finds anybody to displace,
  and all it can do to those who are there already is to move them one bucket on.  Whatever
  else is on the list, in whatever order, whoever came in by the front of the list is there
  at its end.

  For the same reason the clock makes no difference, but for the times at which the buckets
  changed (`Untouched.insertAll_congr`).

  A run of insertions has one answer for each peer, the one that its insertion into the table
  as it is by then gives (`getElem?_answer_insertAll`).
-/
import Kademlia.Proofs.Eviction
import Kademlia.Proofs.Reload
import Kademlia.Proofs.Undated

namespace Kademlia

/-! ### Peers that were never contacted -/

/-- Nothing was heard of a peer, and nothing was asked of it. -/
def Peer.NeverContacted (p : Peer) : Prop :=
  p.lastReply = none ∧ p.lastQuery = none ∧ p.pending = 0

theorem Peer.neverContacted_ofContact (c : Contact) : (ofContact c).NeverContacted :=
  ⟨rfl, rfl, rfl⟩

theorem Peer.NeverContacted.status_eq {p : Peer} (h : p.NeverContacted) (now : Time) :
    p.status now = .unknown := by
  have hfew : (0 : UInt8) < maxPending := by decide
  simp only [status, h.1, h.2.2, if_pos hfew]

namespace Table

variable {t t' : Table} {p : Peer} {now : Time}

/-! ### Tables of such peers -/

/-- Whoever is there stays, unless the answer names somebody who does not. -/
theorem Insertion.mem_of_mem {u : Update Outcome} (h : Insertion t p now u)
    (hkept : ∀ i e, u.answer ≠ .replaced i e) {q : Peer} (hq : q ∈ t.peers) :
    q ∈ u.table.peers := by
  cases h with
  | self => exact hq
  | present => exact hq
  | added _ _ hchange => exact hchange.peers_perm.mem_iff.mpr (List.mem_cons_of_mem p hq)
  | replaced => exact absurd rfl (hkept _ _)
  | refused => exact hq
  | addedAfterSplit _ _ _ hsplit _ hchange =>
    have hmoved := hsplit.peers_perm.mem_iff.mpr hq
    exact hchange.peers_perm.mem_iff.mpr (List.mem_cons_of_mem p hmoved)
  | refusedAfterSplit _ _ _ hsplit _ => exact hsplit.peers_perm.mem_iff.mpr hq

/-- A table of peers that were never contacted. -/
structure Untouched (t : Table) : Prop where
  wellFormed : t.WellFormed
  neverContacted : ∀ q ∈ t.peers, q.NeverContacted

theorem untouched_new (localId : NodeId) : (new localId).Untouched := by
  refine ⟨wellFormed_new localId, ?_⟩
  intro q hq
  cases hq

namespace Untouched

theorem status_home (h : t.Untouched) {id : NodeId} {q : Peer} (hq : q ∈ (t.home id).peers)
    (now : Time) : q.status now = .unknown :=
  (h.neverContacted q ((t.home_sublist id).subset hq)).status_eq now

theorem not_replaced (h : t.Untouched) (p : Peer) (now : Time) (i : Nat) (e : Peer) :
    (t.insert p now).answer ≠ .replaced i e := by
  intro hreplaced
  obtain ⟨-, -, q, hq, hstatus⟩ := (insert_cases h.wellFormed p now).of_replaced hreplaced
  simp [h.status_home hq now] at hstatus

theorem mem_insert (h : t.Untouched) (p : Peer) (now : Time) {q : Peer} (hq : q ∈ t.peers) :
    q ∈ (t.insert p now).table.peers :=
  (insert_cases h.wellFormed p now).mem_of_mem (h.not_replaced p now) hq

theorem insert (h : t.Untouched) (hp : p.NeverContacted) (now : Time) :
    (t.insert p now).table.Untouched := by
  refine ⟨wellFormed_insert h.wellFormed p now, ?_⟩
  intro q hq
  rcases (insert_cases h.wellFormed p now).mem_peers h.wellFormed hq with rfl | hq
  · exact hp
  · exact h.neverContacted q hq

/-- However many such peers are inserted, nobody was contacted in the end, nobody was
    displaced, and whoever was there before still is. -/
theorem insertAll {ps : List Peer} (h : t.Untouched) (hps : ∀ p ∈ ps, p.NeverContacted)
    (clock : Nat → Time) :
    (t.insertAll clock ps).table.Untouched ∧
      (∀ outcome ∈ (t.insertAll clock ps).answer, ∀ i e, outcome ≠ .replaced i e) ∧
      ∀ q ∈ t.peers, q ∈ (t.insertAll clock ps).table.peers := by
  induction ps generalizing t clock with
  | nil => exact ⟨h, by simp [Table.insertAll], fun q hq => hq⟩
  | cons p rest ih =>
    obtain ⟨hp, hrest⟩ := List.forall_mem_cons.mp hps
    obtain ⟨huntouched, hanswers, hkept⟩ :=
      ih (h.insert hp (clock 0)) hrest fun n => clock (n + 1)
    refine ⟨huntouched, ?_, ?_⟩
    · simp only [Table.insertAll, List.forall_mem_cons]
      exact ⟨h.not_replaced p (clock 0), hanswers⟩
    · intro q hq
      exact hkept q (h.mem_insert p (clock 0) hq)

/-- Where all are unknown at all times, the clock is not asked for anything. -/
theorem insertAll_congr {ps : List Peer} (h : t.Untouched) (hps : ∀ p ∈ ps, p.NeverContacted)
    (hsame : t.undated = t'.undated) (clock clock' : Nat → Time) :
    (t.insertAll clock ps).undated = (t'.insertAll clock' ps).undated := by
  induction ps generalizing t t' clock clock' with
  | nil => exact Update.undated_eq_iff.mpr ⟨rfl, hsame, rfl⟩
  | cons p rest ih =>
    obtain ⟨hp, hrest⟩ := List.forall_mem_cons.mp hps
    have hstatus : ∀ q ∈ (t.home p.id).peers, q.status (clock 0) = q.status (clock' 0) := by
      intro q hq
      exact (h.status_home hq _).trans (h.status_home hq _).symm
    obtain ⟨hanswer, htable, hevents⟩ := Update.undated_eq_iff.mp (insert_congr hsame hstatus)
    obtain ⟨hanswers, htables, hmore⟩ := Update.undated_eq_iff.mp
      (ih (h.insert hp (clock 0)) hrest htable (fun n => clock (n + 1)) fun n => clock' (n + 1))
    apply Update.undated_eq_iff.mpr
    simp only [Table.insertAll, hanswer, hanswers, htables, hevents, hmore, and_self]

end Untouched

/-! ### The answers of a run of insertions -/

theorem length_answer_insertAll (t : Table) (clock : Nat → Time) (ps : List Peer) :
    (t.insertAll clock ps).answer.length = ps.length := by
  induction ps generalizing t clock with
  | nil => rfl
  | cons p rest ih => simp only [Table.insertAll, List.length_cons, ih]

theorem getElem?_answer_insertAll (t : Table) (clock : Nat → Time) {ps : List Peer} {i : Nat}
    (h : ps[i]? = some p) :
    (t.insertAll clock ps).answer[i]? =
      some ((t.insertAll clock (ps.take i)).table.insert p (clock i)).answer := by
  induction ps generalizing t clock i with
  | nil => cases h
  | cons q rest ih =>
    cases i with
    | zero =>
      obtain rfl : q = p := Option.some.inj h
      rfl
    | succ i => exact ih (t.insert q (clock 0)).table (fun n => clock (n + 1)) h

/-! ### Restoring a list and a longer one -/

theorem neverContacted_of_mem (contacts : List Contact) :
    ∀ p ∈ contacts.map Peer.ofContact, p.NeverContacted :=
  List.forall_mem_map.mpr fun c _ => Peer.neverContacted_ofContact c

/-- **Restoring.**  Each contact of the list is inserted into what was restored of those before
    it.  Whatever the lists and the clocks, nobody is displaced; whoever is there comes from the
    list and was never contacted, and is there as well, unchanged, if the list goes on.  Without
    the times of changes, what comes of a list is the same by every clock. -/
theorem restore_never_displaces (localId : NodeId) (xs ys : List Contact)
    (clock clock' : Nat → Time) :
    let u := restore localId xs clock
    u.answer.length = xs.length ∧
      (∀ i c, xs[i]? = some c → u.answer[i]? =
        some ((restore localId (xs.take i) clock).table.insert (.ofContact c) (clock i)).answer) ∧
      (∀ outcome ∈ u.answer, ∀ i e, outcome ≠ .replaced i e) ∧
      (∀ p ∈ u.table.peers, p.NeverContacted ∧ ∃ c ∈ xs, p = Peer.ofContact c) ∧
      (∀ p ∈ u.table.peers, p ∈ (restore localId (xs ++ ys) clock').table.peers) ∧
      u.undated = (restore localId xs clock').undated := by
  have hnew := untouched_new localId
  have hxs := neverContacted_of_mem xs
  have hsame := hnew.insertAll_congr hxs rfl clock clock'
  obtain ⟨huntouched, hanswers, -⟩ := hnew.insertAll hxs clock
  refine ⟨?_, ?_, hanswers, ?_, ?_, hsame⟩
  · rw [restore, length_answer_insertAll, List.length_map]
  · intro i c hc
    have hp : (xs.map Peer.ofContact)[i]? = some (.ofContact c) := by
      rw [List.getElem?_map, hc]
      rfl
    rw [restore, getElem?_answer_insertAll (new localId) clock hp, restore, List.map_take]
  · intro p hp
    refine ⟨huntouched.neverContacted p hp, ?_⟩
    rcases mem_peers_insertAll (wellFormed_new localId) clock _ hp with hp | hp
    · cases hp
    · obtain ⟨c, hc, rfl⟩ := List.mem_map.mp hp
      exact ⟨c, hc, rfl⟩
  · intro p hp
    -- by the other clock the first list gives the same peers, and the second finds them there
    obtain ⟨-, htable, -⟩ := Update.undated_eq_iff.mp hsame
    have hp' : p ∈ (restore localId xs clock').table.peers := peers_congr htable ▸ hp
    obtain ⟨huntouched', -, -⟩ := hnew.insertAll hxs clock'
    obtain ⟨-, -, hkept⟩ := huntouched'.insertAll (neverContacted_of_mem ys)
      fun n => clock' (n + (xs.map Peer.ofContact).length)
    rw [restore, List.map_append, insertAll_append]
    exact hkept p hp'

/-- A contact that shares nothing with the identifier zero, as the first neighbour does not. -/
def distantContact (k : Nat) : Contact :=
  ⟨(neighbour 0).id.flipBit (k + 1), ⟨Bytes.fill 4 127, 6882⟩⟩

set_option maxRecDepth 4000 in
/-- Nine neighbours come in by a split, which leaves one of them in the first bucket.  Of the
    distant ones who follow seven find room there, and the last two find it full of peers that
    nothing was heard of either. -/
theorem restore_never_displaces_distant :
    let contacts := neighbourhood.snapshot ++ (List.range 9).map distantContact
    let u := restore .zero contacts fun n => -n
    u.answer = List.replicate 8 (.added 0) ++ .added 1 ::
        (List.replicate 7 (.added 0) ++ [.full, .full]) ∧
      u.answer[17]? = some ((restore .zero (contacts.take 17) fun n => -n).table.insert
        (.ofContact (distantContact 8)) (-17)).answer ∧
      (∀ outcome ∈ u.answer, ∀ i e, outcome ≠ .replaced i e) ∧
      ∀ p ∈ (restore .zero neighbourhood.snapshot fun n => n).table.peers, p ∈ u.table.peers := by
  obtain ⟨-, hanswer, hanswers, -, -, -⟩ := restore_never_displaces .zero
    (neighbourhood.snapshot ++ (List.range 9).map distantContact) [] (fun n => -n) fun n => -n
  obtain ⟨-, -, -, -, hkept, -⟩ := restore_never_displaces .zero neighbourhood.snapshot
    ((List.range 9).map distantContact) (fun n => n) fun n => -n
  exact ⟨by decide, hanswer 17 (distantContact 8) (by decide), hanswers, hkept⟩

end Table

end Kademlia
