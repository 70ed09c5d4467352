/-
  Kademlia/Proofs/Reload.lean
  ===========================
  **Which peers come back from a snapshot.**

  A reload inserts the peers of a table into a new one, in the order of its buckets.
  None of them was ever contacted, so none displaces another, and a peer is lost
  only if it finds the last bucket full and one split does not help: when it and the
  eight others all belong deeper.

  In the table that was saved, nobody then shares exactly as many bits as the index
  of that last bucket, for he would have come before them.  So the bucket with this
  index was empty, and more than eight peers were behind it.  Conversely such a gap
  always costs a peer: as long as nobody is lost there is no split at the gap, and
  one bucket cannot hold all who are behind it.  Together: a reload keeps everybody
  exactly if no empty bucket has more than eight peers behind it
  (`reload_exact_iff`).

  Removals leave such gaps, and so do refused insertions (`Contended.retry`).
-/
import Kademlia.Proofs.Depth

namespace Kademlia

/-- A peer as a snapshot remembers it. -/
def Peer.renewed (p : Peer) : Peer :=
  Peer.new p.id p.address

@[simp] theorem Peer.id_renewed (p : Peer) : p.renewed.id = p.id := rfl

theorem Peer.ofContact_of_contact? {p : Peer} {c : Contact} (h : p.contact? = some c) :
    Peer.ofContact c = p.renewed := by
  rcases p with ⟨id, address, reply, query, pending⟩
  cases address with
  | v4 endpoint =>
    obtain rfl : ⟨id, endpoint⟩ = c := Option.some.inj h
    rfl
  | v6 ip port => cases h

namespace Table

variable {t r : Table} {p : Peer} {now : Time}

/-- Who is stored, and where each of them is reached. -/
def directory (t : Table) : List (NodeId × Address) :=
  t.peers.map fun p => (p.id, p.address)

/-- The peers in the buckets after the one at index `k`. -/
def beyond (t : Table) (k : Nat) : List Peer :=
  (t.buckets.drop (k + 1)).flatMap Bucket.peers

/-- No empty bucket has more than eight peers behind it. -/
def Gapless (t : Table) : Prop :=
  ∀ b ∈ t.buckets, b.peers = [] → (t.beyond b.index).length ≤ 8

/-! ### How many peers a part of a table holds -/

theorem home_sublist (t : Table) (id : NodeId) : (t.home id).peers.Sublist t.peers :=
  sublist_peers (t.home_mem id)

theorem beyond_sublist (t : Table) (k : Nat) : (t.beyond k).Sublist t.peers := by
  rw [beyond, List.flatMap_def, peers, List.flatMap_def]
  exact ((List.drop_sublist (k + 1) t.buckets).map Bucket.peers).flatten

theorem length_le_of_subset {ids : List NodeId} {ps : List Peer} (hnodup : ids.Nodup)
    (hsub : ids ⊆ ps.map Peer.id) : ids.length ≤ ps.length := by
  rw [← List.length_map Peer.id]
  exact (List.subperm_of_subset hnodup hsub).length_le

namespace WellFormed

theorem mem_home_of_findBucket_eq (ht : t.WellFormed) {q : Peer} (hq : q ∈ t.peers) {id : NodeId}
    (h : t.findBucket q.id = t.findBucket id) : q ∈ (t.home id).peers := by
  have hhome : t.home q.id = t.home id := by
    apply Option.some.inj
    rw [← getElem?_findBucket, ← getElem?_findBucket, h]
  rw [← hhome]
  exact ht.mem_home hq

/-- Distinct identifiers that are stored under one index are eight at most. -/
theorem length_le_of_findBucket_eq (ht : t.WellFormed) {ids : List NodeId} (hnodup : ids.Nodup)
    (hstored : ids ⊆ t.peers.map Peer.id) {k : Nat} (hk : ∀ id ∈ ids, t.findBucket id = k) :
    ids.length ≤ 8 := by
  cases ids with
  | nil => simp
  | cons x rest =>
    have hsub : x :: rest ⊆ (t.home x).peers.map Peer.id := by
      intro id hid
      obtain ⟨q, hq, rfl⟩ := List.mem_map.mp (hstored hid)
      apply List.mem_map_of_mem
      apply ht.mem_home_of_findBucket_eq hq
      rw [hk _ hid, hk x List.mem_cons_self]
    exact (length_le_of_subset hnodup hsub).trans (t.home x).length_peers_le

theorem mem_beyond (ht : t.WellFormed) {q : Peer} (hq : q ∈ t.peers) {k : Nat}
    (hk : k < t.findBucket q.id) : q ∈ t.beyond k := by
  have hhome := t.getElem?_findBucket q.id
  refine List.mem_flatMap.mpr ⟨t.home q.id, ?_, ht.mem_home hq⟩
  apply List.mem_of_getElem? (i := t.findBucket q.id - (k + 1))
  rw [List.getElem?_drop, show k + 1 + (t.findBucket q.id - (k + 1)) = t.findBucket q.id by omega]
  exact hhome

theorem lt_findBucket_of_mem_beyond (ht : t.WellFormed) {q : Peer} {k : Nat}
    (hq : q ∈ t.beyond k) : q ∈ t.peers ∧ k < t.findBucket q.id := by
  obtain ⟨b, hb, hqb⟩ := List.mem_flatMap.mp hq
  obtain ⟨j, hj⟩ := List.mem_iff_getElem?.mp hb
  rw [List.getElem?_drop] at hj
  refine ⟨mem_peers.mpr ⟨b, List.mem_of_getElem? hj, hqb⟩, ?_⟩
  rw [ht.placed _ b hj q hqb]
  omega

theorem length_le_beyond (ht : t.WellFormed) {ids : List NodeId} (hnodup : ids.Nodup)
    (hstored : ids ⊆ t.peers.map Peer.id) {k : Nat} (hk : ∀ id ∈ ids, k < t.findBucket id) :
    ids.length ≤ (t.beyond k).length := by
  apply length_le_of_subset hnodup
  intro id hid
  obtain ⟨q, hq, rfl⟩ := List.mem_map.mp (hstored hid)
  exact List.mem_map_of_mem (ht.mem_beyond hq (hk _ hid))

/-- The peers are listed in the order of their buckets. -/
theorem pairwise_findBucket (ht : t.WellFormed) :
    t.peers.Pairwise fun p q => t.findBucket p.id ≤ t.findBucket q.id := by
  rw [peers, List.pairwise_flatMap, List.pairwise_iff_getElem]
  constructor
  · intro b hb
    obtain ⟨k, hk⟩ := List.mem_iff_getElem?.mp hb
    apply List.pairwise_of_forall_mem_list
    intro p hp q hq
    rw [ht.placed k b hk p hp, ht.placed k b hk q hq]
  · intro i j hi hj hlt p hp q hq
    rw [ht.placed i _ (List.getElem?_eq_getElem hi) p hp,
      ht.placed j _ (List.getElem?_eq_getElem hj) q hq]
    exact hlt.le

end WellFormed

/-! ### What arrives, and what becomes of it -/

theorem Insertion.mem_peers {u : Update Outcome} (h : Insertion t p now u) (ht : t.WellFormed)
    {q : Peer} (hq : q ∈ u.table.peers) : q = p ∨ q ∈ t.peers := by
  have hchange : ∀ {t₁ t₂ : Table} {i : Nat} {old : Option Peer}, t₁.WellFormed →
      t₁.SlotChange i old (some p) t₂ → q ∈ t₂.peers → q = p ∨ q ∈ t₁.peers := by
    intro t₁ t₂ i old ht₁ hchange hq
    rcases (hchange.mem_peers_iff ht₁).mp hq with hnew | ⟨hold, -⟩
    · exact Or.inl (Option.some.inj hnew).symm
    · exact Or.inr hold
  cases h with
  | self => exact Or.inr hq
  | present => exact Or.inr hq
  | added _ _ h => exact hchange ht h hq
  | replaced _ _ _ _ h => exact hchange ht h hq
  | refused => exact Or.inr hq
  | addedAfterSplit _ _ _ hsplit _ h =>
    rcases hchange (hsplit.wellFormed ht) h hq with heq | hmem
    · exact Or.inl heq
    · exact Or.inr (hsplit.peers_perm.mem_iff.mp hmem)
  | refusedAfterSplit _ _ _ hsplit _ => exact Or.inr (hsplit.peers_perm.mem_iff.mp hq)

theorem mem_peers_insertAll (ht : t.WellFormed) (clock : Nat → Time) (ps : List Peer) {q : Peer}
    (hq : q ∈ (t.insertAll clock ps).table.peers) : q ∈ t.peers ∨ q ∈ ps := by
  induction ps generalizing t clock with
  | nil => exact Or.inl hq
  | cons p rest ih =>
    rcases ih (wellFormed_insert ht p (clock 0)) (fun n => clock (n + 1)) hq with hq | hq
    · rcases (insert_cases ht p (clock 0)).mem_peers ht hq with rfl | hq
      · exact Or.inr List.mem_cons_self
      · exact Or.inl hq
    · exact Or.inr (List.mem_cons_of_mem p hq)

theorem SlotChange.peers_perm {t' : Table} {i : Nat} (h : t.SlotChange i none (some p) t') :
    t'.peers.Perm (p :: t.peers) := by
  obtain ⟨before, after, hl, hr⟩ := h.peers_split
  simp only [Option.toList, List.append_nil, List.append_assoc, List.singleton_append] at hl hr
  rw [hl, hr]
  exact List.perm_middle

theorem peers_perm_insert_of_room (ht : t.WellFormed) (habsent : t.Absent p)
    (hroom : (t.home p.id).peers.length < 8) (now : Time) :
    (t.insert p now).table.peers.Perm (p :: t.peers) := by
  obtain ⟨b, hadd, hinsert⟩ := insert_of_room ht habsent hroom now
  rw [hinsert]
  exact (slotChange_setBucket (Bucket.add_ok hadd)).peers_perm

/-- A split that moves some but not all of the nine makes room for the candidate. -/
theorem Contended.peers_perm_insert (h : t.Contended p now)
    (hsome : ∃ q ∈ p :: t.last.peers, t.deeper q = true)
    (hnot : ¬ ∀ q ∈ p :: t.last.peers, t.deeper q = true) :
    (t.insert p now).table.peers.Perm (p :: t.peers) := by
  obtain ⟨source, dest, t₁, hsplit, hcase⟩ := h.insert_cases hsome
  rcases hcase with ⟨hall, -⟩ | ⟨-, -, hchange⟩
  · exact absurd hall hnot
  · exact hchange.peers_perm.trans (hsplit.peers_perm.cons p)

/-! ### Without gaps nobody is lost -/

/-- A reload under way: the peers in `done` are stored again, those in `todo` are to
    come. -/
structure Reloading (t r : Table) (done todo : List Peer) : Prop where
  wellFormed : r.WellFormed
  localId_eq : r.localId = t.localId
  peers_eq : t.peers = done ++ todo
  stored : r.peers.Perm (done.map Peer.renewed)

namespace Reloading

variable {done todo : List Peer}

theorem ids_perm (h : Reloading t r done todo) :
    (r.peers.map Peer.id).Perm (done.map Peer.id) := by
  have hperm := h.stored.map Peer.id
  rwa [List.map_map] at hperm

theorem absent (h : Reloading t r done (p :: todo)) (ht : t.WellFormed) : r.Absent p.renewed := by
  have hdistinct := ht.distinct
  rw [h.peers_eq, List.map_append, List.nodup_append] at hdistinct
  constructor
  · rw [h.localId_eq, Peer.id_renewed]
    apply ht.foreign
    rw [h.peers_eq]
    exact List.mem_append_right _ List.mem_cons_self
  · intro q hq
    rw [Peer.id_renewed]
    apply hdistinct.2.2
    · exact h.ids_perm.mem_iff.mp (List.mem_map_of_mem hq)
    · exact List.mem_map_of_mem List.mem_cons_self

theorem status_eq (h : Reloading t r done todo) {q : Peer} (hq : q ∈ r.peers) (now : Time) :
    q.status now = .unknown := by
  obtain ⟨x, -, rfl⟩ := List.mem_map.mp (h.stored.mem_iff.mp hq)
  rfl

/-- The candidate and those in the bucket responsible for it. -/
def nine (r : Table) (p : Peer) : List NodeId :=
  p.id :: (r.home p.id).peers.map Peer.id

theorem nodup_nine (h : Reloading t r done (p :: todo)) (ht : t.WellFormed) :
    (nine r p).Nodup := by
  have habsent := h.absent ht
  refine List.nodup_cons.mpr ⟨?_, ?_⟩
  · intro hmem
    obtain ⟨q, hq, hid⟩ := List.mem_map.mp hmem
    exact habsent.fresh q (mem_peers.mpr ⟨_, r.home_mem p.id, hq⟩) hid
  · exact ((r.home_sublist p.id).map Peer.id).nodup h.wellFormed.distinct

theorem nine_stored (h : Reloading t r done (p :: todo)) : nine r p ⊆ t.peers.map Peer.id := by
  intro id hid
  rw [h.peers_eq, List.map_append]
  rcases List.mem_cons.mp hid with rfl | hid
  · exact List.mem_append_right _ (List.mem_map_of_mem List.mem_cons_self)
  · obtain ⟨q, hq, rfl⟩ := List.mem_map.mp hid
    have hmem : q ∈ r.peers := mem_peers.mpr ⟨_, r.home_mem p.id, hq⟩
    exact List.mem_append_left _ (h.ids_perm.mem_iff.mp (List.mem_map_of_mem hmem))

theorem findBucket_nine (h : Reloading t r done (p :: todo)) :
    ∀ id ∈ nine r p, r.findBucket id = r.findBucket p.id := by
  intro id hid
  rcases List.mem_cons.mp hid with rfl | hid
  · rfl
  · obtain ⟨q, hq, rfl⟩ := List.mem_map.mp hid
    exact h.wellFormed.placed _ _ (r.getElem?_findBucket p.id) q hq

/-- No nine peers of a table belong into the same bucket of it. -/
theorem not_together (h : Reloading t r done (p :: todo)) (ht : t.WellFormed)
    (hfull : (r.home p.id).peers.length = 8) (k : Nat) :
    ¬ ∀ id ∈ nine r p, t.findBucket id = k := by
  intro hall
  have hle := ht.length_le_of_findBucket_eq (h.nodup_nine ht) h.nine_stored hall
  rw [nine, List.length_cons, List.length_map, hfull] at hle
  omega

theorem not_equally_deep (h : Reloading t r done (p :: todo)) (ht : t.WellFormed)
    (hfull : (r.home p.id).peers.length = 8) (s : Nat) :
    ¬ ∀ id ∈ nine r p, t.localId.sharedBits id = s := by
  intro hall
  apply h.not_together ht hfull (min s (t.bucketCount - 1))
  intro id hid
  rw [findBucket, hall id hid]

/-- Whoever was in a bucket before that of the candidate is back already. -/
theorem mem_done (h : Reloading t r done (p :: todo)) (ht : t.WellFormed) {q : Peer}
    (hq : q ∈ t.peers) (hlt : t.findBucket q.id < t.findBucket p.id) : q ∈ done := by
  have hordered := ht.pairwise_findBucket
  rw [h.peers_eq, List.pairwise_append, List.pairwise_cons] at hordered
  rw [h.peers_eq] at hq
  rcases List.mem_append.mp hq with hq | hq
  · exact hq
  · exfalso
    rcases List.mem_cons.mp hq with rfl | hq
    · omega
    · have := hordered.2.1.1 q hq
      omega

/-- A full bucket is the last one, and some of the nine belong deeper. -/
theorem split_tried (h : Reloading t r done (p :: todo)) (ht : t.WellFormed)
    (hfull : (r.home p.id).peers.length = 8) :
    r.findBucket p.id + 1 = r.bucketCount ∧
      ∃ id ∈ nine r p, r.findBucket p.id < t.localId.sharedBits id := by
  have hpos := r.bucketCount_pos
  have hfind := h.findBucket_nine
  simp only [findBucket, h.localId_eq] at hfind ⊢
  constructor
  · by_contra hlast
    apply h.not_equally_deep ht hfull (min (t.localId.sharedBits p.id) (r.bucketCount - 1))
    intro id hid
    have := hfind id hid
    omega
  · by_contra hnone
    apply h.not_equally_deep ht hfull (min (t.localId.sharedBits p.id) (r.bucketCount - 1))
    intro id hid
    have := hfind id hid
    have hle : ¬ min (t.localId.sharedBits p.id) (r.bucketCount - 1) < t.localId.sharedBits id :=
      fun hlt => hnone ⟨id, hid, hlt⟩
    omega

/-- If all nine belonged deeper, there would be a gap. -/
theorem split_helps (h : Reloading t r done (p :: todo)) (ht : t.WellFormed) (hgap : t.Gapless)
    (hfull : (r.home p.id).peers.length = 8) :
    ¬ ∀ id ∈ nine r p, r.findBucket p.id < t.localId.sharedBits id := by
  intro hall
  obtain ⟨hlast, -⟩ := h.split_tried ht hfull
  by_cases hk : r.findBucket p.id + 1 < t.bucketCount
  · have hdeep : ∀ id ∈ nine r p, r.findBucket p.id < t.findBucket id := by
      intro id hid
      have := hall id hid
      change r.findBucket p.id < min (t.localId.sharedBits id) (t.bucketCount - 1)
      omega
    obtain ⟨b, hb⟩ : ∃ b, t.buckets[r.findBucket p.id]? = some b :=
      ⟨_, List.getElem?_eq_getElem (Nat.lt_of_succ_lt hk)⟩
    rcases hempty : b.peers with _ | ⟨q, rest⟩
    · -- nine peers behind an empty bucket
      have hle := hgap b (List.mem_of_getElem? hb) hempty
      rw [ht.indexed _ b hb] at hle
      have hnine := ht.length_le_beyond (h.nodup_nine ht) h.nine_stored hdeep
      rw [nine, List.length_cons, List.length_map, hfull] at hnine
      omega
    · -- somebody of that bucket came before the candidate, and is in its way
      have hqb : q ∈ b.peers := by rw [hempty]; exact List.mem_cons_self
      have hq : q ∈ t.peers := mem_peers.mpr ⟨b, List.mem_of_getElem? hb, hqb⟩
      have hshared := ht.sharedBits_eq hb hk hqb
      have hback : q ∈ done := by
        apply h.mem_done ht hq
        rw [ht.placed _ b hb q hqb]
        exact hdeep p.id List.mem_cons_self
      have hstored : q.renewed ∈ r.peers := h.stored.mem_iff.mpr (List.mem_map_of_mem hback)
      have hhome : q.renewed ∈ (r.home p.id).peers := by
        apply h.wellFormed.mem_home_of_findBucket_eq hstored
        rw [Peer.id_renewed, findBucket, h.localId_eq, hshared]
        omega
      have hnine : q.id ∈ nine r p :=
        List.mem_cons_of_mem _ (List.mem_map.mpr ⟨q.renewed, hhome, rfl⟩)
      have := hall q.id hnine
      omega
  · apply h.not_together ht hfull (t.bucketCount - 1)
    intro id hid
    have := hall id hid
    rw [findBucket]
    omega

theorem contended (h : Reloading t r done (p :: todo)) (ht : t.WellFormed)
    (hfull : (r.home p.id).peers.length = 8) (now : Time) : r.Contended p.renewed now := by
  refine ⟨h.wellFormed, h.absent ht, ⟨hfull, ?_⟩, (h.split_tried ht hfull).1⟩
  intro q hq
  simp [h.status_eq ((r.home_sublist p.id).subset hq) now]

/-- The next peer is taken in. -/
theorem step (h : Reloading t r done (p :: todo)) (ht : t.WellFormed) (hgap : t.Gapless)
    (now : Time) : Reloading t (r.insert p.renewed now).table (done ++ [p]) todo := by
  have habsent := h.absent ht
  have htaken : (r.insert p.renewed now).table.peers.Perm (p.renewed :: r.peers) := by
    by_cases hroom : (r.home p.id).peers.length < 8
    · exact peers_perm_insert_of_room h.wellFormed habsent hroom now
    · have hfull : (r.home p.id).peers.length = 8 := by
        have := (r.home p.id).length_peers_le
        omega
      have hcontended := h.contended ht hfull now
      have hdeeper : ∀ q, r.deeper q = true ↔ r.findBucket p.id < t.localId.sharedBits q.id := by
        intro q
        rw [← h.localId_eq]
        exact deeper_iff hcontended.last
      have hnine : nine r p = (p.renewed :: r.last.peers).map Peer.id := by
        rw [nine, List.map_cons, ← hcontended.home_eq]
        rfl
      have htried := (h.split_tried ht hfull).2
      have hhelps := h.split_helps ht hgap hfull
      rw [hnine] at htried hhelps
      apply hcontended.peers_perm_insert
      · obtain ⟨id, hid, hlt⟩ := htried
        obtain ⟨q, hq, rfl⟩ := List.mem_map.mp hid
        exact ⟨q, hq, (hdeeper q).mpr hlt⟩
      · intro hall
        apply hhelps
        intro id hid
        obtain ⟨q, hq, rfl⟩ := List.mem_map.mp hid
        exact (hdeeper q).mp (hall q hq)
  refine ⟨wellFormed_insert h.wellFormed _ now, ?_, ?_, ?_⟩
  · exact (insert_cases h.wellFormed p.renewed now).localId_eq.trans h.localId_eq
  · rw [h.peers_eq, List.append_cons]
  · rw [List.map_append]
    exact htaken.trans ((h.stored.cons p.renewed).trans (List.perm_append_singleton _ _).symm)

theorem run (h : Reloading t r done todo) (ht : t.WellFormed) (hgap : t.Gapless)
    (clock : Nat → Time) :
    Reloading t (r.insertAll clock (todo.map Peer.renewed)).table (done ++ todo) [] := by
  induction todo generalizing r done clock with
  | nil =>
    rw [List.append_nil]
    exact h
  | cons p rest ih =>
    rw [List.append_cons]
    exact ih (h.step ht hgap (clock 0)) fun n => clock (n + 1)

end Reloading

/-! ### A gap costs a peer -/

/-- If nobody shares exactly as many bits as the index of the bucket that is split, the
    split makes no room for the candidate. -/
theorem Insertion.peers_perm_of_gap {u : Update Outcome} (h : Insertion t p now u)
    (ht : t.WellFormed) (hgrown : u.table.bucketCount = t.bucketCount + 1)
    (hgap : ∀ q ∈ p :: t.peers, t.localId.sharedBits q.id ≠ t.bucketCount - 1) :
    u.table.peers.Perm t.peers := by
  have hsame {t' : Table} (heq : t'.bucketCount = t.bucketCount)
      (hgrown : t'.bucketCount = t.bucketCount + 1) : False := by omega
  cases h with
  | self => exact (hsame rfl hgrown).elim
  | present => exact (hsame rfl hgrown).elim
  | added _ _ hchange => exact (hsame hchange.bucketCount_eq hgrown).elim
  | replaced _ _ _ _ hchange => exact (hsame hchange.bucketCount_eq hgrown).elim
  | refused => exact .refl _
  | addedAfterSplit habsent hblocked hyes hsplit hroom hchange =>
    exfalso
    obtain ⟨hlast, -, q, hq, hdeeper⟩ := canSplit_iff.mp hyes
    have hfull : t.last.peers.length = 8 := home_eq_last hlast ▸ hblocked.full
    have hall : ∀ q ∈ p :: t.last.peers, t.deeper q = true := by
      intro q hq
      have hle : t.bucketCount - 1 ≤ t.localId.sharedBits q.id := by
        rcases List.mem_cons.mp hq with rfl | hq
        · rw [findBucket] at hlast
          omega
        · exact ht.le_sharedBits_of_last hq
      have hmem : q ∈ p :: t.peers := by
        rcases List.mem_cons.mp hq with rfl | hq
        · exact List.mem_cons_self
        · rw [← home_eq_last hlast] at hq
          exact List.mem_cons_of_mem p ((t.home_sublist p.id).subset hq)
      have hne := hgap q hmem
      rw [deeper, decide_eq_true_iff]
      omega
    have := (hsplit.length_home hlast hfull ⟨q, hq, (deeper_iff hlast).mpr hdeeper⟩).mpr hall
    omega
  | refusedAfterSplit _ _ _ hsplit _ => exact hsplit.peers_perm

/-- If everybody is taken in, and nobody shares exactly `k` bits, then bucket `k` is
    never split. -/
theorem bucketCount_insertAll_of_gap (ht : t.WellFormed) {k : Nat} (hcount : t.bucketCount ≤ k + 1)
    (clock : Nat → Time) (ps : List Peer)
    (hgap : ∀ q, q ∈ t.peers ∨ q ∈ ps → t.localId.sharedBits q.id ≠ k)
    (hdistinct : (ps.map Peer.id).Nodup) (hnew : ∀ p ∈ ps, ∀ q ∈ t.peers, q.id ≠ p.id)
    (hkept : ∀ p ∈ ps, ∃ q ∈ (t.insertAll clock ps).table.peers, q.id = p.id) :
    (t.insertAll clock ps).table.bucketCount ≤ k + 1 := by
  induction ps generalizing t clock with
  | nil => exact hcount
  | cons p rest ih =>
    have hcases := insert_cases ht p (clock 0)
    have ht₁ := wellFormed_insert ht p (clock 0)
    have hp : ∀ q ∈ rest, q.id ≠ p.id := by
      rw [List.map_cons, List.nodup_cons] at hdistinct
      intro q hq hid
      apply hdistinct.1
      rw [← hid]
      exact List.mem_map_of_mem hq
    have hcount₁ : (t.insert p (clock 0)).table.bucketCount ≤ k + 1 := by
      rcases hcases.bucketCount_cases ht with hsame | ⟨-, hgrown⟩
      · omega
      · by_contra hsplit
        -- the split that just happened left the candidate outside
        have hindex : t.bucketCount - 1 = k := by omega
        have hperm := hcases.peers_perm_of_gap ht hgrown (by
          intro q hq
          rw [hindex]
          apply hgap
          rcases List.mem_cons.mp hq with rfl | hq
          · exact Or.inr List.mem_cons_self
          · exact Or.inl hq)
        obtain ⟨q, hq, hid⟩ := hkept p List.mem_cons_self
        rcases mem_peers_insertAll ht₁ (fun n => clock (n + 1)) rest hq with hq | hq
        · exact hnew p List.mem_cons_self q (hperm.mem_iff.mp hq) hid
        · exact hp q hq hid
    apply ih ht₁ hcount₁
    · intro q hq
      rw [hcases.localId_eq]
      apply hgap
      rcases hq with hq | hq
      · rcases hcases.mem_peers ht hq with rfl | hq
        · exact Or.inr List.mem_cons_self
        · exact Or.inl hq
      · exact Or.inr (List.mem_cons_of_mem p hq)
    · exact (List.nodup_cons.mp hdistinct).2
    · intro x hx q hq
      rcases hcases.mem_peers ht hq with rfl | hq
      · exact (hp x hx).symm
      · exact hnew x (List.mem_cons_of_mem p hx) q hq
    · intro x hx
      exact hkept x (List.mem_cons_of_mem p hx)

/-- A table that takes in all peers of one with a gap would have more than eight of
    them in its last bucket. -/
theorem gapless_of_all_kept (ht : t.WellFormed) (clock : Nat → Time)
    (hkept : ∀ p ∈ t.peers, ∃ q ∈ ((new t.localId).insertAll clock
      (t.peers.map Peer.renewed)).table.peers, q.id = p.id) : t.Gapless := by
  intro b hb hempty
  obtain ⟨k, hk⟩ := List.mem_iff_getElem?.mp hb
  rw [ht.indexed k b hk]
  by_contra hmany
  have hnew := wellFormed_new t.localId
  have hlt : k + 1 < t.bucketCount := by
    obtain ⟨q, hq⟩ := List.exists_mem_of_length_pos (l := t.beyond k) (by omega)
    have := (ht.lt_findBucket_of_mem_beyond hq).2
    rw [findBucket] at this
    omega
  have hgap : ∀ q ∈ t.peers, t.localId.sharedBits q.id ≠ k := by
    intro q hq hshared
    have hfind : t.findBucket q.id = k := by
      rw [findBucket]
      omega
    have hmem := ht.mem_home hq
    have hhome := t.getElem?_findBucket q.id
    rw [hfind, hk, Option.some.injEq] at hhome
    rw [← hhome, hempty] at hmem
    cases hmem
  have hids : (t.peers.map Peer.renewed).map Peer.id = t.peers.map Peer.id := List.map_map
  generalize hr : ((new t.localId).insertAll clock (t.peers.map Peer.renewed)).table = r at hkept
  have hshallow : r.bucketCount ≤ k + 1 := by
    rw [← hr]
    apply bucketCount_insertAll_of_gap hnew (by rw [bucketCount_new]; omega)
    · rintro q (hq | hq)
      · simp [peers, new] at hq
      · obtain ⟨x, hx, rfl⟩ := List.mem_map.mp hq
        exact hgap x hx
    · rw [hids]
      exact ht.distinct
    · intro p _ q hq
      simp [peers, new] at hq
    · intro p hp
      obtain ⟨x, hx, rfl⟩ := List.mem_map.mp hp
      rw [hr]
      exact hkept x hx
  have hwf : r.WellFormed := hr ▸ wellFormed_insertAll hnew clock _
  have hlocal : r.localId = t.localId := hr ▸ localId_insertAll hnew clock _
  -- all who are behind the gap belong into the last bucket of the new table
  have hnodup : ((t.beyond k).map Peer.id).Nodup :=
    ((t.beyond_sublist k).map Peer.id).nodup ht.distinct
  have hstored : (t.beyond k).map Peer.id ⊆ r.peers.map Peer.id := by
    intro id hid
    obtain ⟨q, hq, rfl⟩ := List.mem_map.mp hid
    obtain ⟨x, hx, hxid⟩ := hkept q (ht.lt_findBucket_of_mem_beyond hq).1
    exact List.mem_map.mpr ⟨x, hx, hxid⟩
  have hlast : ∀ id ∈ (t.beyond k).map Peer.id, r.findBucket id = r.bucketCount - 1 := by
    intro id hid
    obtain ⟨q, hq, rfl⟩ := List.mem_map.mp hid
    have hdeep := (ht.lt_findBucket_of_mem_beyond hq).2
    rw [findBucket] at hdeep
    rw [findBucket, hlocal]
    omega
  have hle := hwf.length_le_of_findBucket_eq hnodup hstored hlast
  rw [List.length_map] at hle
  exact hmany hle

/-! ### Snapshots -/

/-- A snapshot forgets nobody who is reached at an IPv4 address. -/
theorem map_ofContact_snapshot (hv4 : ∀ p ∈ t.peers, ∃ endpoint, p.address = .v4 endpoint) :
    t.snapshot.map Peer.ofContact = t.peers.map Peer.renewed := by
  rw [snapshot]
  generalize t.peers = ps at hv4
  induction ps with
  | nil => rfl
  | cons p rest ih =>
    obtain ⟨⟨endpoint, hp⟩, hrest⟩ := List.forall_mem_cons.mp hv4
    have hcontact : p.contact? = some ⟨p.id, endpoint⟩ := by rw [Peer.contact?, hp]
    rw [List.filterMap_cons_some hcontact, List.map_cons, List.map_cons,
      Peer.ofContact_of_contact? hcontact, ih hrest]

theorem map_directory_renewed (ps : List Peer) :
    (ps.map Peer.renewed).map (fun p => (p.id, p.address)) =
      ps.map fun p => (p.id, p.address) := by
  rw [List.map_map]
  rfl

/-- **Reloading a table.**  Who comes back was stored, at the same address; and
    everybody comes back exactly if no empty bucket has more than eight peers behind
    it. -/
theorem reload_exact_iff (h : t.Reachable)
    (hv4 : ∀ p ∈ t.peers, ∃ endpoint, p.address = .v4 endpoint) (clock : Nat → Time) :
    (∀ e ∈ (restore t.localId t.snapshot clock).table.directory, e ∈ t.directory) ∧
      ((∀ e, e ∈ (restore t.localId t.snapshot clock).table.directory ↔ e ∈ t.directory) ↔
        t.Gapless) := by
  have ht := h.wellFormed
  have hnew := wellFormed_new t.localId
  rw [restore, map_ofContact_snapshot hv4]
  have hsub : ∀ e ∈ ((new t.localId).insertAll clock
      (t.peers.map Peer.renewed)).table.directory, e ∈ t.directory := by
    intro e he
    obtain ⟨q, hq, rfl⟩ := List.mem_map.mp he
    rcases mem_peers_insertAll hnew clock _ hq with hq | hq
    · cases hq
    · rw [directory, ← map_directory_renewed]
      exact List.mem_map_of_mem hq
  refine ⟨hsub, ?_, ?_⟩
  · intro hsame
    apply gapless_of_all_kept ht clock
    intro p hp
    have hmem := (hsame (p.id, p.address)).mpr (List.mem_map.mpr ⟨p, hp, rfl⟩)
    obtain ⟨q, hq, heq⟩ := List.mem_map.mp hmem
    exact ⟨q, hq, congrArg Prod.fst heq⟩
  · intro hgap e
    have hstart : Reloading t (new t.localId) [] t.peers := ⟨hnew, rfl, rfl, .refl _⟩
    have hperm := (hstart.run ht hgap clock).stored.map fun p => (p.id, p.address)
    rw [List.nil_append, map_directory_renewed] at hperm
    exact hperm.mem_iff

/-! ### A bucket that is empty -/

/-- The neighbourhood without the one peer of its first bucket. -/
def vacated : Table :=
  (neighbourhood.run [.remove (neighbour 0).id]).2

/-- Behind the gap a ninth peer has arrived, by a split. -/
def hollowed : Table :=
  (vacated.run [.insert (neighbour 9) 0]).2

theorem v4_of_peers_eq {ks : List Nat} (h : t.peers = ks.map neighbour) :
    ∀ p ∈ t.peers, ∃ endpoint, p.address = .v4 endpoint := by
  intro p hp
  rw [h] at hp
  obtain ⟨k, -, rfl⟩ := List.mem_map.mp hp
  exact ⟨_, rfl⟩

set_option maxRecDepth 4000 in
theorem peers_vacated : vacated.peers = [1, 2, 3, 4, 5, 6, 7, 8].map neighbour := by decide

set_option maxRecDepth 4000 in
theorem peers_hollowed : hollowed.peers = [1, 2, 3, 4, 5, 6, 7, 8, 9].map neighbour := by decide

theorem reachable_vacated : vacated.Reachable :=
  reachable_neighbourhood.run _

set_option maxRecDepth 4000 in
theorem gapless_vacated : vacated.Gapless := by
  unfold Gapless
  decide

theorem reload_exact_vacated :
    vacated.Reachable ∧ (∀ p ∈ vacated.peers, ∃ endpoint, p.address = .v4 endpoint) ∧
      vacated.Gapless ∧
        ∀ e, e ∈ (restore vacated.localId vacated.snapshot fun _ => 0).table.directory ↔
          e ∈ vacated.directory :=
  have hv4 := v4_of_peers_eq peers_vacated
  ⟨reachable_vacated, hv4, gapless_vacated,
    (reload_exact_iff reachable_vacated hv4 fun _ => 0).2.mpr gapless_vacated⟩

set_option maxRecDepth 4000 in
theorem reload_loses_hollowed :
    hollowed.Reachable ∧ (∀ p ∈ hollowed.peers, ∃ endpoint, p.address = .v4 endpoint) ∧
      ¬ ∀ e, e ∈ (restore hollowed.localId hollowed.snapshot fun _ => 0).table.directory ↔
        e ∈ hollowed.directory := by
  refine ⟨reachable_vacated.run _, v4_of_peers_eq peers_hollowed, ?_⟩
  intro hsame
  have hback := (hsame ((neighbour 9).id, (neighbour 9).address)).mpr (by decide)
  revert hback
  decide

end Table

end Kademlia
