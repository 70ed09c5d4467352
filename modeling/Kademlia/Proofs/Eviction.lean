/-
  Kademlia/Proofs/Eviction.lean
  =============================
  **Who has to go when a bucket is full.**

  The first bad peer gives up its slot; if nobody is bad, the questionable peer that was
  least recently active does, and of several such peers the first.  `Slots.Victim` says
  this of a row and of one of its slots.

  Activities are compared in the library's order of optional values, where a time that
  never was comes before all others.  The comparison that the search makes is this order
  (`earlier_iff`), so what it answers with is least, and the first of the least
  (`leastActive?_least`): the search goes through the row from its far end, and a peer takes
  the place of the choice behind it unless that one was active strictly before it.
-/
import Kademlia.Proofs.Invariant
import Kademlia.Proofs.Places

namespace Kademlia

/-! ### Activity -/

instance : Std.IsLinearPreorder (Option Time) where
  le_refl a := by cases a <;> simp
  le_trans a b c := by
    cases a <;> cases b <;> cases c <;> simp
    exact Int.le_trans
  le_total a b := by
    cases a <;> cases b <;> simp
    exact Int.le_total _ _

instance : Std.LawfulOrderLT (Option Time) where
  lt_iff a b := by
    cases a <;> cases b <;> simp
    exact Int.le_of_lt

/-- The smaller of the last reply and the last query. -/
def Peer.activity (p : Peer) : Option Time :=
  min p.lastReply p.lastQuery

theorem Peer.lastActivity_eq (p : Peer) : p.lastActivity = p.activity := by
  rcases hreply : p.lastReply with _ | reply <;> rcases hquery : p.lastQuery with _ | query <;>
    simp [lastActivity, activity, hreply, hquery]

namespace Slots

theorem earlier_iff (a b : Option Time) : earlier a b = true ↔ a < b := by
  cases a <;> cases b <;> simp [earlier]

theorem not_earlier_iff (p q : Peer) :
    (!earlier p.lastActivity q.lastActivity) = true ↔ q.activity ≤ p.activity := by
  rw [Bool.not_eq_true', ← Bool.not_eq_true, earlier_iff, Std.not_lt, p.lastActivity_eq,
    q.lastActivity_eq]

/-! ### The victim of a row -/

/-- Of those who pass a test nobody was active before `p`, and whoever is in a slot
    before slot `i` was active after it. -/
def Least (test : Peer → Bool) (row : Slots) (i : Nat) (p : Peer) : Prop :=
  ∀ k q, row[k]? = some (some q) → test q = true →
    p.activity ≤ q.activity ∧ (k < i → p.activity < q.activity)

theorem leastActive?_least {test : Peer → Bool} {row : Slots} {i : Nat} {p : Peer}
    (h : leastActive? test row = some (i, p)) : Least test row i p := by
  induction row generalizing i p with
  | nil => simp [leastActive?] at h
  | cons slot rest ih =>
    cases slot with
    | none =>
      simp only [leastActive?, Option.map_eq_some_iff, Prod.exists, Prod.mk.injEq] at h
      obtain ⟨j, q, hj, rfl, rfl⟩ := h
      intro k x hk hx
      cases k with
      | zero => simp at hk
      | succ k => simpa using ih hj k x (by simpa using hk) hx
    | some first =>
      rcases hrest : leastActive? test rest with _ | ⟨j, r⟩
      · -- nobody behind the first passes, so it is the only choice
        simp only [leastActive?, hrest, Option.map_none] at h
        split at h
        · obtain ⟨rfl, rfl⟩ : 0 = i ∧ first = p := by simpa using h
          intro k x hk hx
          cases k with
          | zero =>
            obtain rfl : first = x := by simpa using hk
            simp
          | succ k =>
            have hmem : x ∈ occupants rest := mem_occupants.mpr (List.mem_of_getElem? hk)
            have hfails := leastActive?_eq_none hrest x hmem
            simp [hx] at hfails
        · simp at h
      · have hleast := ih hrest
        simp only [leastActive?, hrest, Option.map_some] at h
        split at h
        · -- the first passes and was not active after the choice behind it
          rename_i hfirst
          obtain ⟨rfl, rfl⟩ : 0 = i ∧ first = p := by simpa using h
          have hle : first.activity ≤ r.activity :=
            (not_earlier_iff r first).mp (Bool.and_eq_true_iff.mp hfirst).2
          intro k x hk hx
          cases k with
          | zero =>
            obtain rfl : first = x := by simpa using hk
            simp
          | succ k => exact ⟨Std.le_trans hle (hleast k x hk hx).1, fun hlt => absurd hlt (by simp)⟩
        · rename_i hfirst
          obtain ⟨rfl, rfl⟩ : j + 1 = i ∧ r = p := by simpa using h
          intro k x hk hx
          cases k with
          | zero =>
            obtain rfl : first = x := by simpa using hk
            have hlt : r.activity < first.activity := by
              rw [← Std.not_le, ← not_earlier_iff]
              exact fun hle => hfirst (Bool.and_eq_true_iff.mpr ⟨hx, hle⟩)
            exact ⟨Std.le_of_lt hlt, fun _ => hlt⟩
          | succ k => simpa using hleast k x hk hx

/-- Slot `j` holds the peer that has to go: the first bad one, and if nobody is bad the
    questionable one that was least recently active, the first of several. -/
structure Victim (row : Slots) (now : Time) (j : Nat) (e : Peer) : Prop where
  occupies : row[j]? = some (some e)
  chosen :
    if ∃ q ∈ occupants row, q.status now = .bad then
      e.status now = .bad ∧ ∀ k q, row[k]? = some (some q) → q.status now = .bad → j ≤ k
    else
      e.status now = .questionable ∧
        ∀ k q, row[k]? = some (some q) → q.status now = .questionable →
          e.activity ≤ q.activity ∧ (k < j → e.activity < q.activity)

theorem Victim.status_cases {row : Slots} {now : Time} {j : Nat} {e : Peer}
    (h : Victim row now j e) : e.status now = .bad ∨ e.status now = .questionable := by
  have hchosen := h.chosen
  split at hchosen
  · exact Or.inl hchosen.1
  · exact Or.inr hchosen.1

end Slots

/-! ### The victim of a bucket -/

namespace Bucket

variable {b b' : Bucket} {p e : Peer} {now : Time}

theorem lt_of_victim {j : Nat} (h : Slots.Victim b.slots now j e) : j < 8 := by
  rw [← b.length_slots]
  exact (List.getElem?_eq_some_iff.mp h.occupies).1

theorem victim_of_replaceBad (h : b.replaceBad p now = .ok (e, b')) :
    ∃ j, Slots.Victim b.slots now j e ∧ b' = b.exchange j p now := by
  rcases hfirst : Slots.first? (fun q => q.status now = .bad) b.slots with _ | ⟨j, old⟩
  · simp [replaceBad, hfirst] at h
  · simp only [replaceBad, hfirst, Except.ok.injEq, Prod.mk.injEq] at h
    obtain ⟨rfl, rfl⟩ := h
    obtain ⟨hplace, hbad, hlowest⟩ := Slots.first?_place hfirst
    have hbad : old.status now = .bad := by simpa using hbad
    refine ⟨j, ⟨hplace, ?_⟩, rfl⟩
    rw [if_pos ⟨old, Slots.mem_occupants.mpr (List.mem_of_getElem? hplace), hbad⟩]
    exact ⟨hbad, fun k q hk hq => hlowest k q hk (by simpa using hq)⟩

theorem victim_of_replaceQuestionable (hnobad : ∀ q ∈ b.peers, q.status now ≠ .bad)
    (h : b.replaceQuestionable p now = .ok (e, b')) :
    ∃ j, Slots.Victim b.slots now j e ∧ b' = b.exchange j p now := by
  rcases hleast : Slots.leastActive? (fun q => q.status now = .questionable) b.slots
    with _ | ⟨j, old⟩
  · simp [replaceQuestionable, hleast] at h
  · simp only [replaceQuestionable, hleast, Except.ok.injEq, Prod.mk.injEq] at h
    obtain ⟨rfl, rfl⟩ := h
    obtain ⟨before, after, hrow, hj, hquest⟩ := Slots.leastActive?_eq_some hleast
    have hplace : b.slots[j]? = some (some old) := by simp [hrow, hj]
    have hnone : ¬ ∃ q ∈ Slots.occupants b.slots, q.status now = .bad := by
      rintro ⟨q, hq, hbad⟩
      exact hnobad q hq hbad
    refine ⟨j, ⟨hplace, ?_⟩, rfl⟩
    rw [if_neg hnone]
    refine ⟨by simpa using hquest, ?_⟩
    intro k q hk hq
    exact Slots.leastActive?_least hleast k q hk (by simpa using hq)

end Bucket

/-! ### Insertions that evict -/

namespace Table

variable {t : Table} {p e : Peer} {now : Time} {i : Nat}

/-- If somebody may be displaced, the victim is. -/
theorem insertIntoFull_of_displaceable (t : Table) (i : Nat) {b : Bucket}
    (h : ∃ q ∈ b.peers, q.status now = .bad ∨ q.status now = .questionable) :
    ∃ j e events, Slots.Victim b.slots now j e ∧
      t.insertIntoFull i b p now =
        ⟨.replaced i e, t.setBucket i (b.exchange j p now), events⟩ := by
  unfold insertIntoFull
  rcases hbad : b.replaceBad p now with q | ⟨e, b'⟩
  · obtain ⟨rfl, hnobad⟩ := Bucket.replaceBad_error hbad
    simp only
    rcases hquest : b.replaceQuestionable q now with q' | ⟨e, b'⟩
    · obtain ⟨-, hnoquest⟩ := Bucket.replaceQuestionable_error hquest
      obtain ⟨x, hx, hstatus⟩ := h
      exact absurd hstatus (not_or.mpr ⟨hnobad x hx, hnoquest x hx⟩)
    · obtain ⟨j, hvictim, rfl⟩ := Bucket.victim_of_replaceQuestionable hnobad hquest
      exact ⟨j, e, _, hvictim, rfl⟩
  · obtain ⟨j, hvictim, rfl⟩ := Bucket.victim_of_replaceBad hbad
    exact ⟨j, e, _, hvictim, rfl⟩

theorem Insertion.of_replaced {u : Update Outcome} (h : Insertion t p now u)
    (hu : u.answer = .replaced i e) :
    t.Absent p ∧ (t.home p.id).peers.length = 8 ∧
      ∃ q ∈ (t.home p.id).peers, q.status now = .bad ∨ q.status now = .questionable := by
  cases h with
  | replaced habsent hfull hmem hstatus => exact ⟨habsent, hfull, _, hmem, hstatus⟩
  | self => cases hu
  | present => cases hu
  | added => cases hu
  | refused => cases hu
  | addedAfterSplit => cases hu
  | refusedAfterSplit => cases hu

/-- What an insertion into bucket `i` that evicts `e` comes down to: the bucket was full,
    `e` was the victim of its row, and the new peer is in its slot. -/
structure Evicts (t : Table) (p : Peer) (now : Time) (i : Nat) (e : Peer) (t' : Table) : Prop where
  absent : t.Absent p
  responsible : t.findBucket p.id = i
  exchanged : ∃ b j, t.bucket? i = some b ∧ b.isFull = true ∧ b.peers.length = 8 ∧
    Slots.Victim b.slots now j e ∧ t.Rewritten i j (some p) t'
  expendable : e.status now ≠ .good ∧ e.status now ≠ .unknown

/-- **Eviction.**  Whenever an insertion reports that a peer was replaced, that peer was
    the victim of a full bucket, and nothing but its slot has changed hands. -/
theorem eviction_exact (h : t.Reachable) (hreplaced : (t.insert p now).answer = .replaced i e) :
    t.Evicts p now i e (t.insert p now).table := by
  have ht := h.wellFormed
  obtain ⟨habsent, hfull, hdisplaceable⟩ := (insert_cases ht p now).of_replaced hreplaced
  obtain ⟨j, old, events, hvictim, hinsert⟩ :=
    insertIntoFull_of_displaceable (p := p) t (t.findBucket p.id) hdisplaceable
  rw [insert_of_full ht habsent hfull, hinsert] at hreplaced ⊢
  obtain ⟨rfl, rfl⟩ : t.findBucket p.id = i ∧ old = e := by simpa using hreplaced
  have hwritten : t.Rewritten (t.findBucket p.id) j (some p)
      (t.setBucket (t.findBucket p.id) ((t.home p.id).exchange j p now)) :=
    rewritten_setBucket (Bucket.lt_of_victim hvictim) rfl
  refine ⟨habsent, rfl,
    ⟨t.home p.id, j, t.bucket?_findBucket p.id, ?_, hfull, hvictim, hwritten⟩, ?_⟩
  · exact (ht.counted_home p.id).isFull_iff.mpr hfull
  · rcases hvictim.status_cases with hstatus | hstatus <;> simp [hstatus]

/-- What happened to eight peers.  Half an hour later the third, the fourth and the fifth
    are questionable, and two of them were never queried.  The seventh has two
    unanswered queries and is good as long as the last one is recent. -/
def career : Nat → List Edit
  | 0 => [.markReply (25 * minute)]
  | 2 => [.markReply 30, .markQuery 20]
  | 3 => [.markReply 40]
  | 4 => [.markReply 50]
  | 5 => [.markReply 10, .markQuery (31 * minute)]
  | 6 => [.markReply 10, .markQuery 60, .markQuery (31 * minute)]
  | 7 => [.markQuery 70]
  | _ => []

def veteran (k : Nat) : Peer :=
  (neighbour k).editAll (career k)

def veterans : Table :=
  ((new .zero).run ((List.range 8).map fun k => .insert (veteran k) 0)).2

set_option maxRecDepth 4000 in
/-- At first the first of the two that were never queried has to go.  Later the one that left
    its queries unanswered does, whoever was quiet for longer. -/
theorem eviction_exact_veterans :
    veterans.Reachable ∧
      ((veterans.insert (neighbour 8) (33 * minute)).answer = .replaced 0 (veteran 3) ∧
        veterans.Evicts (neighbour 8) (33 * minute) 0 (veteran 3)
          (veterans.insert (neighbour 8) (33 * minute)).table) ∧
      (veterans.insert (neighbour 8) (50 * minute)).answer = .replaced 0 (veteran 6) ∧
        veterans.Evicts (neighbour 8) (50 * minute) 0 (veteran 6)
          (veterans.insert (neighbour 8) (50 * minute)).table := by
  have hreachable : veterans.Reachable := (Reachable.new .zero).run _
  have hquiet : (veterans.insert (neighbour 8) (33 * minute)).answer = .replaced 0 (veteran 3) := by
    decide
  have hbad : (veterans.insert (neighbour 8) (50 * minute)).answer = .replaced 0 (veteran 6) := by
    decide
  exact ⟨hreachable, ⟨hquiet, eviction_exact hreachable hquiet⟩, hbad,
    eviction_exact hreachable hbad⟩

end Table

end Kademlia
