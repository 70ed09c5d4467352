/-
  Kademlia/Proofs/Lookup.lean
  ===========================
  **One bucket answers for the whole table.**

  Looking a peer up, removing it and editing it all search nothing but the bucket that is
  responsible for its identifier.  In a table that is in order this finds what a search of
  all peers would find (`toList_find?`): each peer is in that bucket, also when splits have
  changed which one it is.

  The three searches are the same search, so they find the peer in one and the same place
  (`exists_first?`), and a removal or an edit is a write to that place.  None of them counts
  as a change of the bucket.
-/
import Kademlia.Proofs.Invariant
import Kademlia.Proofs.Places

namespace Kademlia.Table

variable {t : Table} {id : NodeId} {q : Peer}

/-! ### What is found -/

/-- The peer that is found is the only one a search of all peers would find. -/
theorem toList_find? (ht : t.WellFormed) (id : NodeId) :
    (t.find? id).toList = t.peers.filter fun q => q.id = id := by
  rcases hfind : t.find? id with _ | q
  · symm
    apply List.filter_eq_nil_iff.mpr
    intro q hq hid
    have hfound := (find?_eq_some_iff ht).mpr ⟨hq, by simpa using hid⟩
    rw [hfind] at hfound
    cases hfound
  · obtain ⟨hq, rfl⟩ := (find?_eq_some_iff ht).mp hfind
    obtain ⟨before, after, hpeers⟩ := List.append_of_mem hq
    have hdistinct := ht.distinct
    rw [hpeers, List.append_cons] at hdistinct
    -- whoever else is stored bears another identifier
    have hother : ∀ x ∈ before ++ after, ¬ x.id = q.id := by
      intro x hx hid
      exact (nodup_middle.mp hdistinct).1 (hid ▸ List.mem_map_of_mem hx)
    have hbefore : before.filter (fun x => x.id = q.id) = [] := by
      apply List.filter_eq_nil_iff.mpr
      simpa using fun x hx => hother x (List.mem_append_left after hx)
    have hafter : after.filter (fun x => x.id = q.id) = [] := by
      apply List.filter_eq_nil_iff.mpr
      simpa using fun x hx => hother x (List.mem_append_right before hx)
    simp [hpeers, hbefore, hafter]

theorem contains_iff (ht : t.WellFormed) : t.contains id = true ↔ ∃ q ∈ t.peers, q.id = id := by
  rw [contains, Option.isSome_iff_exists]
  simp only [find?_eq_some_iff ht]

theorem find?_eq_none (ht : t.WellFormed) (h : ∀ q ∈ t.peers, q.id ≠ id) : t.find? id = none := by
  apply Option.eq_none_iff_forall_ne_some.mpr
  intro q hfind
  obtain ⟨hq, hid⟩ := (find?_eq_some_iff ht).mp hfind
  exact h q hq hid

/-! ### Where it is found -/

theorem exists_first? (h : t.find? id = some q) :
    ∃ j, Slots.first? (fun p => p.id = id) (t.home id).slots = some (j, q) := by
  have hsearch : (Slots.first? (fun p => p.id = id) (t.home id).slots).map Prod.snd = some q :=
    (Slots.map_snd_first? _ _).trans h
  obtain ⟨⟨j, p⟩, hfirst, rfl⟩ := Option.map_eq_some_iff.mp hsearch
  exact ⟨j, hfirst⟩

theorem first?_eq_none (h : t.find? id = none) :
    Slots.first? (fun p => p.id = id) (t.home id).slots = none := by
  have hsearch : (Slots.first? (fun p => p.id = id) (t.home id).slots).map Prod.snd = none :=
    (Slots.map_snd_first? _ _).trans h
  exact Option.map_eq_none_iff.mp hsearch

section

variable {j : Nat}

theorem slot?_of_first? (h : Slots.first? (fun p => p.id = id) (t.home id).slots = some (j, q)) :
    t.slot? (t.findBucket id) j = some (some q) :=
  (slot?_of_bucket? (t.bucket?_findBucket id) j).trans (Slots.first?_place h).1

theorem lt_of_first? (h : Slots.first? (fun p => p.id = id) (t.home id).slots = some (j, q)) :
    j < 8 := by
  rw [← (t.home id).length_slots]
  exact (List.getElem?_eq_some_iff.mp (Slots.first?_place h).1).1

/-! ### What is written there -/

theorem remove?_place (h : Slots.first? (fun p => p.id = id) (t.home id).slots = some (j, q)) :
    ∃ t', t.remove? id = some (q, t') ∧ t.Rewritten (t.findBucket id) j none t' ∧
      t.SameTimes t' := by
  have hremove : t.remove? id = some (q, t.setBucket (t.findBucket id)
      { (t.home id).setSlot j none with size := (t.home id).size - 1 }) := by
    simp [remove?, Bucket.remove?, h]
  exact ⟨_, hremove, rewritten_setBucket (lt_of_first? h) rfl, sameTimes_setBucket rfl⟩

theorem edit?_place (h : Slots.first? (fun p => p.id = id) (t.home id).slots = some (j, q))
    (f : Peer → Peer) :
    ∃ t', t.edit? id f = some (f q, t') ∧ t.Rewritten (t.findBucket id) j (some (f q)) t' ∧
      t.SameTimes t' := by
  have hedit : t.edit? id f =
      some (f q, t.setBucket (t.findBucket id) ((t.home id).setSlot j (some (f q)))) := by
    simp [edit?, Bucket.edit?, h]
  exact ⟨_, hedit, rewritten_setBucket (lt_of_first? h) rfl, sameTimes_setBucket rfl⟩

end

theorem remove?_of_find?_eq_none (h : t.find? id = none) : t.remove? id = none := by
  simp [remove?, Bucket.remove?, first?_eq_none h]

theorem edit?_of_find?_eq_none (h : t.find? id = none) (f : Peer → Peer) :
    t.edit? id f = none := by
  simp [edit?, Bucket.edit?, first?_eq_none h]

/-! ### Operations on one identifier -/

/-- An update answers yes, has written `new` to slot `j` of bucket `k`, and has done nothing
    else. -/
structure Marks (t : Table) (k j : Nat) (new : Peer) (u : Update Bool) : Prop where
  answer_eq : u.answer = true
  rewritten : t.Rewritten k j (some new) u.table
  sameTimes : t.SameTimes u.table

/-- The operations on an identifier all work on the peer `q` in slot `j` of bucket `k`. -/
structure Directed (t : Table) (id : NodeId) (q : Peer) (k j : Nat) : Prop where
  place : t.slot? k j = some (some q)
  removes : ∃ t', t.remove? id = some (q, t') ∧ t.Rewritten k j none t' ∧ t.SameTimes t'
  edits : ∀ f : Peer → Peer, ∃ t', t.edit? id f = some (f q, t') ∧
    t.Rewritten k j (some (f q)) t' ∧ t.SameTimes t'
  marksReply : ∀ now, t.Marks k j (q.markReply now) (t.markReply id now)
  marksQuery : ∀ now, t.Marks k j (q.markQuery now) (t.markQuery id now)

/-- The operations on an identifier find nobody, say so, and leave the table as it is. -/
structure Undirected (t : Table) (id : NodeId) : Prop where
  removes : t.remove? id = none ∧ (t.perform (.remove id)).table = t
  edits : (∀ f : Peer → Peer, t.edit? id f = none) ∧
    ∀ plan, (t.perform (.edit id plan)).table = t
  marksReply : ∀ now, (t.markReply id now).answer = false ∧ (t.markReply id now).table = t
  marksQuery : ∀ now, (t.markQuery id now).answer = false ∧ (t.markQuery id now).table = t

theorem exists_directed (h : t.find? id = some q) : ∃ k j, t.Directed id q k j := by
  obtain ⟨j, hfirst⟩ := exists_first? h
  refine ⟨t.findBucket id, j, slot?_of_first? hfirst, remove?_place hfirst,
    edit?_place hfirst, ?_, ?_⟩
  · intro now
    obtain ⟨t', hedit, hwritten, htimes⟩ := edit?_place hfirst (·.markReply now)
    simp only [markReply, hedit]
    exact ⟨rfl, hwritten, htimes⟩
  · intro now
    obtain ⟨t', hedit, hwritten, htimes⟩ := edit?_place hfirst (·.markQuery now)
    simp only [markQuery, hedit]
    exact ⟨rfl, hwritten, htimes⟩

theorem undirected (h : t.find? id = none) : t.Undirected id := by
  have hremove := remove?_of_find?_eq_none h
  have hedit := edit?_of_find?_eq_none h
  refine ⟨⟨hremove, ?_⟩, ⟨hedit, ?_⟩, ?_, ?_⟩
  · simp only [perform, hremove]
  · intro plan
    simp only [perform, hedit]
  · intro now
    simp only [markReply, hedit, and_self]
  · intro now
    simp only [markQuery, hedit, and_self]

/-- **Operations on one identifier.**  In every table that can come about, looking an
    identifier up agrees with a search of all peers.  Who bears it is in one place, which is
    all that a removal, an edit or a mark writes to; if nobody does, nothing happens. -/
theorem directed_exact (h : t.Reachable) (id : NodeId) :
    (t.find? id).toList = t.peers.filter (fun q => q.id = id) ∧
      (t.contains id = true ↔ ∃ q ∈ t.peers, q.id = id) ∧
      (∀ q ∈ t.peers, q.id = id → ∃ k j, t.Directed id q k j) ∧
      ((∀ q ∈ t.peers, q.id ≠ id) → t.Undirected id) := by
  have ht := h.wellFormed
  refine ⟨toList_find? ht id, contains_iff ht, ?_, ?_⟩
  · intro q hq hid
    exact exists_directed ((find?_eq_some_iff ht).mpr ⟨hq, hid⟩)
  · intro habsent
    exact undirected (find?_eq_none ht habsent)

/-- A neighbour that the split has moved is found, and the local identifier is not. -/
theorem directed_exact_neighbourhood :
    neighbourhood.Reachable ∧ neighbour 3 ∈ neighbourhood.peers ∧
      (∃ k j, neighbourhood.Directed (neighbour 3).id (neighbour 3) k j) ∧
      (∀ q ∈ neighbourhood.peers, q.id ≠ neighbourhood.localId) ∧
      neighbourhood.Undirected neighbourhood.localId := by
  have hmem : neighbour 3 ∈ neighbourhood.peers := by decide
  have hforeign : ∀ q ∈ neighbourhood.peers, q.id ≠ neighbourhood.localId := by decide
  have hfound := (directed_exact reachable_neighbourhood (neighbour 3).id).2.2.1
  have hlocal := (directed_exact reachable_neighbourhood neighbourhood.localId).2.2.2
  exact ⟨reachable_neighbourhood, hmem, hfound (neighbour 3) hmem rfl, hforeign, hlocal hforeign⟩

end Kademlia.Table
