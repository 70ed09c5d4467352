/-
  Kademlia/Proofs/Decay.lean
  ==========================
  **What the passing of time does to an answer.**

  Peers only decay: between a moment and a later one a status stays what it is, unless it
  was good (`Peer.status_later`).  So whoever may be displaced now may be displaced later.
  That is all that an insertion asks of the clock.  Whether the peer is there already,
  whether its bucket has room and whether a split would make some are questions about the
  table alone (`Insertion.accepted_iff`), and hence an answer can turn from a refusal into
  an acceptance, but never back.
-/
import Kademlia.Proofs.Decision

namespace Kademlia

variable {now later : Time}

/-! ### Statuses -/

namespace Peer

theorem recent_of_recent_later (hle : now ≤ later) {time : Option Time}
    (h : recent later time = true) : recent now time = true := by
  cases time with
  | none => cases h
  | some time =>
    have hlater : later - time < respite := of_decide_eq_true h
    have hnow : now - time ≤ later - time := Int.sub_le_sub_right hle time
    exact decide_eq_true (hnow.trans_lt hlater)

/-- A status that is not good is final, as long as nothing new is heard of the peer. -/
theorem status_later (hle : now ≤ later) (p : Peer) :
    p.status now = .good ∨ p.status later = p.status now := by
  rcases hreply : p.lastReply with _ | reply
  · right
    simp only [status, hreply]
  · by_cases hnow : (recent now (some reply) || recent now p.lastQuery) = true
    · left
      simp only [status, hreply, if_pos hnow]
    · have hlater : ¬ (recent later (some reply) || recent later p.lastQuery) = true := by
        intro h
        apply hnow
        rw [Bool.or_eq_true] at h ⊢
        exact h.imp (recent_of_recent_later hle) (recent_of_recent_later hle)
      right
      simp only [status, hreply, if_neg hnow, if_neg hlater]

theorem displaceable_later (hle : now ≤ later) {p : Peer}
    (h : p.status now = .bad ∨ p.status now = .questionable) :
    p.status later = .bad ∨ p.status later = .questionable := by
  rcases p.status_later hle with hgood | hsame
  · simp [hgood] at h
  · exact hsame ▸ h

end Peer

/-! ### What an insertion asks -/

/-- Whether an answer says that the candidate is now in the table. -/
def Outcome.isAccepted : Outcome → Bool
  | .added _ | .replaced _ _ => true
  | .selfEntry | .alreadyPresent | .full => false

namespace Table

variable {t : Table} {p : Peer} {u : Update Outcome}

/-- A split of the last bucket may be tried for `p`, and would leave room for it. -/
def SplitHelps (t : Table) (p : Peer) : Prop :=
  t.canSplit (t.findBucket p.id) p.id = true ∧ ¬ ∀ q ∈ p :: t.last.peers, t.deeper q = true

/-- There is a slot for `p`: a free one, one that its occupant has to give up, or one that
    a split makes free. -/
def HasPlace (t : Table) (p : Peer) (now : Time) : Prop :=
  (t.home p.id).peers.length < 8 ∨
    (∃ q ∈ (t.home p.id).peers, q.status now = .bad ∨ q.status now = .questionable) ∨
    t.SplitHelps p

theorem HasPlace.mono (h : t.HasPlace p now) (hle : now ≤ later) : t.HasPlace p later := by
  rcases h with hroom | ⟨q, hq, hstatus⟩ | hsplit
  · exact Or.inl hroom
  · exact Or.inr (Or.inl ⟨q, hq, Peer.displaceable_later hle hstatus⟩)
  · exact Or.inr (Or.inr hsplit)

theorem Blocked.hasPlace_iff (h : t.Blocked p now) : t.HasPlace p now ↔ t.SplitHelps p := by
  have hfull : ¬ (t.home p.id).peers.length < 8 := h.full.not_lt
  simp only [HasPlace, hfull, h.not_displaceable, false_or]

theorem Insertion.accepted_iff (h : Insertion t p now u) :
    u.answer.isAccepted = true ↔ t.Absent p ∧ t.HasPlace p now := by
  cases h with
  | self hself =>
    simp only [Outcome.isAccepted, Bool.false_eq_true, false_iff, not_and]
    exact fun habsent => absurd hself habsent.foreign
  | present _ hpresent =>
    simp only [Outcome.isAccepted, Bool.false_eq_true, false_iff, not_and]
    exact fun habsent => absurd hpresent habsent.not_present
  | added habsent hroom => exact iff_of_true rfl ⟨habsent, Or.inl hroom⟩
  | replaced habsent _ hmem hstatus =>
    exact iff_of_true rfl ⟨habsent, Or.inr (Or.inl ⟨_, hmem, hstatus⟩)⟩
  | refused habsent hblocked hno =>
    have hhelpless : ¬ t.SplitHelps p := fun hsplit => by simp [hsplit.1] at hno
    simp [Outcome.isAccepted, habsent, hblocked.hasPlace_iff, hhelpless]
  | addedAfterSplit habsent hblocked hcan hsplit hroom =>
    have hstays := mt (hsplit.length_home_of_canSplit hblocked hcan).mpr hroom.ne
    exact iff_of_true rfl ⟨habsent, hblocked.hasPlace_iff.mpr ⟨hcan, hstays⟩⟩
  | refusedAfterSplit habsent hblocked hcan hsplit hfull =>
    have hall := (hsplit.length_home_of_canSplit hblocked hcan).mp hfull
    have hhelpless : ¬ t.SplitHelps p := fun hhelps => hhelps.2 hall
    simp [Outcome.isAccepted, habsent, hblocked.hasPlace_iff, hhelpless]

theorem Insertion.selfEntry_iff (h : Insertion t p now u) :
    u.answer = .selfEntry ↔ p.id = t.localId := by
  cases h with
  | self hself => simp [hself]
  | present hforeign => simp [hforeign]
  | added habsent | replaced habsent | refused habsent | addedAfterSplit habsent
  | refusedAfterSplit habsent => simp [habsent.foreign]

theorem Insertion.alreadyPresent_iff (h : Insertion t p now u) :
    u.answer = .alreadyPresent ↔ p.id ≠ t.localId ∧ ∃ q ∈ t.peers, q.id = p.id := by
  cases h with
  | self hself => simp [hself]
  | present hforeign hpresent => simp only [ne_eq, hforeign, not_false_eq_true, hpresent, and_self]
  | added habsent | replaced habsent | refused habsent | addedAfterSplit habsent
  | refusedAfterSplit habsent => simp [habsent.not_present]

/-! ### Answers at two times -/

/-- **Passing time.**  A peer that would be taken in now would also be taken in at any later
    time, and whether it is the local one, or there already, does not depend on the time. -/
theorem acceptance_persists (h : t.Reachable) (p : Peer) :
    (∀ now later, now ≤ later → (t.insert p now).answer.isAccepted = true →
      (t.insert p later).answer.isAccepted = true) ∧
    (∀ now later, (t.insert p now).answer = .selfEntry ↔
      (t.insert p later).answer = .selfEntry) ∧
    ∀ now later, (t.insert p now).answer = .alreadyPresent ↔
      (t.insert p later).answer = .alreadyPresent := by
  have hcases := insert_cases h.wellFormed p
  refine ⟨?_, ?_, ?_⟩
  · intro now later hle haccepted
    obtain ⟨habsent, hplace⟩ := (hcases now).accepted_iff.mp haccepted
    exact (hcases later).accepted_iff.mpr ⟨habsent, hplace.mono hle⟩
  · intro now later
    exact (hcases now).selfEntry_iff.trans (hcases later).selfEntry_iff.symm
  · intro now later
    exact (hcases now).alreadyPresent_iff.trans (hcases later).alreadyPresent_iff.symm

/-- Eight peers that all replied at the beginning. -/
def correspondents : Table :=
  ((new .zero).run ((List.range 8).map fun k => .insert ((neighbour k).markReply 0) 0)).2

set_option maxRecDepth 4000 in
/-- A ninth is taken in all the time: by a split while the others are good, and by
    displacing the first of them as soon as they are not. -/
theorem acceptance_persists_correspondents :
    correspondents.Reachable ∧
      (correspondents.insert (neighbour 8) (15 * minute - 1)).answer = .added 1 ∧
      (correspondents.insert (neighbour 8) (15 * minute)).answer =
        .replaced 0 ((neighbour 0).markReply 0) ∧
      ∀ later, 15 * minute - 1 ≤ later →
        (correspondents.insert (neighbour 8) later).answer.isAccepted = true := by
  have hreachable : correspondents.Reachable := (Reachable.new .zero).run _
  have hadded : (correspondents.insert (neighbour 8) (15 * minute - 1)).answer = .added 1 := by
    decide
  obtain ⟨hpersists, -, -⟩ := acceptance_persists hreachable (neighbour 8)
  refine ⟨hreachable, hadded, by decide, fun later hle => hpersists _ later hle ?_⟩
  rw [hadded]
  rfl

end Table

end Kademlia
