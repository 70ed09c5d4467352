/-
  Kademlia/Proofs/Replacement.lean
  ================================
  **What a visitor may put into a slot.**

  A visitor gets hold of what is in a slot, and may put any other peer there; nobody looks at
  the slot afterwards.  The setters of a peer do not touch its identifier, but a record that
  was made somewhere else comes with its own.

  `Intact` is what the structure of a table owes to its users.  A sweep leaves a table intact
  if and only if each bucket keeps its identifiers, in whatever order
  (`sweep_intact_iff`), and an edit if and only if the peer keeps its own
  (`edit_intact_iff`).  A peer that has been put into another's bucket is stored and cannot be
  found (`not_contains_of_misplaced`).
-/
import Kademlia.Proofs.Visits

namespace Kademlia.Table

/-! ### Intact tables -/

/-- Every peer is where its identifier belongs. -/
def AllPlaced (t : Table) : Prop :=
  ∀ k b, t.bucket? k = some b → ∀ p ∈ b.peers, t.findBucket p.id = k

/-- The structure of `t'` is in order, and its peers are the same as those of `t` by
    identifier. -/
structure Intact (t t' : Table) : Prop where
  placed : t'.AllPlaced
  foreign : ∀ p ∈ t'.peers, p.id ≠ t'.localId
  distinct : (t'.peers.map Peer.id).Nodup
  identifiers : (t'.peers.map Peer.id).Perm (t.peers.map Peer.id)

/-- Each bucket holds the identifiers that it held before. -/
def KeepsIds (t t' : Table) : Prop :=
  ∀ k b b', t.bucket? k = some b → t'.bucket? k = some b' →
    (b'.peers.map Peer.id).Perm (b.peers.map Peer.id)

variable {t t' : Table}

theorem AllPlaced.mem_ids_iff (h : t.AllPlaced) {k : Nat} {b : Bucket} (hb : t.bucket? k = some b)
    {id : NodeId} :
    id ∈ b.peers.map Peer.id ↔ id ∈ t.peers.map Peer.id ∧ t.findBucket id = k := by
  constructor
  · intro hid
    obtain ⟨p, hp, rfl⟩ := List.mem_map.mp hid
    have hstored : p ∈ t.peers := mem_peers.mpr ⟨b, List.mem_of_getElem? hb, hp⟩
    exact ⟨List.mem_map_of_mem hstored, h k b hb p hp⟩
  · rintro ⟨hid, rfl⟩
    obtain ⟨p, hp, rfl⟩ := List.mem_map.mp hid
    obtain ⟨c, hc, hpc⟩ := mem_peers.mp hp
    obtain ⟨j, hj⟩ := List.mem_iff_getElem?.mp hc
    -- two buckets to which the same identifier belongs are one
    rw [h j c hj p hpc, bucket?, hj, Option.some.injEq] at hb
    exact hb ▸ List.mem_map_of_mem hpc

theorem KeepsIds.perm (h : t.KeepsIds t') (hcount : t'.bucketCount = t.bucketCount) :
    (t'.peers.map Peer.id).Perm (t.peers.map Peer.id) := by
  rw [peers, peers, List.map_flatMap, List.map_flatMap, List.flatMap_def, List.flatMap_def]
  apply List.Perm.flatten_congr
  rw [List.forall₂_map_left_iff, List.forall₂_map_right_iff, List.forall₂_iff_get]
  refine ⟨hcount, fun k hk' hk => ?_⟩
  exact h k _ _ (List.getElem?_eq_getElem hk) (List.getElem?_eq_getElem hk')

theorem exists_bucket? (hcount : t'.bucketCount = t.bucketCount) {k : Nat} {b' : Bucket}
    (hb' : t'.bucket? k = some b') : ∃ b, t.bucket? k = some b := by
  have hlt : k < t'.bucketCount := (List.getElem?_eq_some_iff.mp hb').1
  rw [hcount] at hlt
  exact ⟨_, List.getElem?_eq_getElem hlt⟩

/-- What is done to the peers of a table that is in order leaves it intact if and only if each
    bucket keeps its identifiers. -/
theorem intact_iff (ht : t.WellFormed) (hlocal : t'.localId = t.localId)
    (hcount : t'.bucketCount = t.bucketCount) : t.Intact t' ↔ t.KeepsIds t' := by
  have hfind : ∀ id, t'.findBucket id = t.findBucket id := by
    intro id
    rw [findBucket, findBucket, hlocal, hcount]
  have hplaced : t.AllPlaced := ht.placed
  constructor
  · intro h k b b' hb hb'
    have hstored : b'.peers.Sublist t'.peers := sublist_peers (List.mem_of_getElem? hb')
    have hdistinct : (b'.peers.map Peer.id).Nodup := h.distinct.sublist (hstored.map Peer.id)
    have hbefore := ht.distinct_of_mem (List.mem_of_getElem? hb)
    apply (List.perm_ext_iff_of_nodup hdistinct hbefore).mpr
    intro id
    rw [h.placed.mem_ids_iff hb', hplaced.mem_ids_iff hb, h.identifiers.mem_iff, hfind]
  · intro h
    have hids := h.perm hcount
    refine ⟨?_, ?_, hids.nodup_iff.mpr ht.distinct, hids⟩
    · intro k b' hb' p hp
      obtain ⟨b, hb⟩ := exists_bucket? hcount hb'
      have hid : p.id ∈ b.peers.map Peer.id :=
        (h k b b' hb hb').mem_iff.mp (List.mem_map_of_mem hp)
      rw [hfind]
      exact ((hplaced.mem_ids_iff hb).mp hid).2
    · intro p hp
      obtain ⟨q, hq, hid⟩ := List.mem_map.mp (hids.mem_iff.mp (List.mem_map_of_mem hp))
      rw [← hid, hlocal]
      exact ht.foreign q hq

/-! ### Sweeps -/

/-- **Sweeps that leave a table intact.**  They are those after which each bucket holds the
    identifiers that it held before, whatever else the visitor does to the peers. -/
theorem sweep_intact_iff {σ : Type} (h : t.Reachable) (visit : σ → Peer → σ × Peer) (state : σ) :
    t.Intact (t.sweep visit state).2 ↔ t.KeepsIds (t.sweep visit state).2 :=
  intact_iff h.wellFormed rfl (length_sweepBuckets visit state t.buckets)

theorem keepsIds_mapPeers {f : Peer → Peer} (hf : ∀ p ∈ t.peers, (f p).id = p.id) :
    t.KeepsIds (t.mapPeers f) := by
  intro k b b' hb hb'
  rw [bucket?_mapPeers, hb, Option.map_some, Option.some.injEq] at hb'
  have hids : b'.peers.map Peer.id = b.peers.map Peer.id := by
    rw [← hb', Bucket.peers_mapPeers, List.map_map]
    apply List.map_congr_left
    intro p hp
    exact hf p (mem_peers.mpr ⟨b, List.mem_of_getElem? hb, hp⟩)
  rw [hids]

/-- Setters do no damage. -/
theorem sweepEdits_intact {σ : Type} (h : t.Reachable) (plan : σ → Peer → σ × List Edit)
    (state : σ) : t.Intact (t.sweepEdits plan state) := by
  have hwf := (h.sweep plan state).wellFormed
  have hids : (t.sweepEdits plan state).peers.map Peer.id = t.peers.map Peer.id :=
    map_peers_sweep _ Peer.id (fun _ p => p.id_editAll _) state t
  exact ⟨hwf.placed, hwf.foreign, hwf.distinct, hids ▸ List.Perm.refl _⟩

/-- A record from elsewhere can: who puts the owner of the table into every slot stores it
    once for each peer. -/
theorem not_every_sweep_intact :
    ¬ ∀ t : Table, t.Reachable → ∀ f : Peer → Peer, t.Intact (t.mapPeers f) := by
  intro hall
  have hintact := hall neighbourhood reachable_neighbourhood fun p => Peer.new .zero p.address
  exact absurd hintact.distinct (by decide)

/-! ### Edits of one peer -/

/-- An edit leaves a table intact if and only if the peer keeps its identifier. -/
theorem edit_intact_iff (h : t.Reachable) {p : Peer} (hp : p ∈ t.peers) (f : Peer → Peer) :
    t.Intact (t.editOrKeep p.id f) ↔ (f p).id = p.id := by
  have ht := h.wellFormed
  rw [editOrKeep_eq_mapPeers ht]
  constructor
  · intro hintact
    -- somebody bears the identifier afterwards, and it cannot be another peer
    have hid : p.id ∈ (t.mapPeers (onlyAt p.id f)).peers.map Peer.id :=
      hintact.identifiers.mem_iff.mpr (List.mem_map_of_mem hp)
    rw [peers_mapPeers, List.map_map] at hid
    obtain ⟨q, hq, hqid⟩ := List.mem_map.mp hid
    rw [Function.comp_apply] at hqid
    by_cases hsame : q.id = p.id
    · obtain rfl := ht.eq_of_id_eq hq hp hsame
      rwa [onlyAt_of_eq rfl] at hqid
    · rw [onlyAt_of_ne hsame] at hqid
      exact absurd hqid hsame
  · intro hid
    apply (sweep_intact_iff h _ ()).mpr
    apply keepsIds_mapPeers
    intro q hq
    by_cases hsame : q.id = p.id
    · obtain rfl := ht.eq_of_id_eq hq hp hsame
      rwa [onlyAt_of_eq rfl]
    · rw [onlyAt_of_ne hsame]

/-- Who has been put where it does not belong is stored and cannot be found. -/
theorem not_contains_of_misplaced (h : t.Reachable) {p : Peer} (hp : p ∈ t.peers)
    {f : Peer → Peer} (hnew : ∀ q ∈ t.peers, q.id ≠ (f p).id)
    (hplace : t.findBucket (f p).id ≠ t.findBucket p.id) :
    f p ∈ (t.editOrKeep p.id f).peers ∧ (t.editOrKeep p.id f).contains (f p).id = false := by
  have ht := h.wellFormed
  rw [editOrKeep_eq_mapPeers ht]
  constructor
  · rw [peers_mapPeers]
    exact List.mem_map.mpr ⟨p, hp, onlyAt_of_eq rfl f⟩
  · -- the bucket that is searched is another one, which is as it was
    have hhome : ∀ q ∈ (t.home (f p).id).peers, onlyAt p.id f q = q := by
      intro q hq
      apply onlyAt_of_ne
      intro hid
      rw [← hid] at hplace
      exact hplace (ht.placed _ _ (t.getElem?_findBucket (f p).id) q hq).symm
    have hnobody : (t.home (f p).id).get? (f p).id = none := by
      apply List.find?_eq_none.mpr
      intro q hq
      simpa using hnew q (mem_peers.mpr ⟨_, t.home_mem (f p).id, hq⟩)
    rw [contains, find?, home_mapPeers, Bucket.mapPeers_eq_self hhome, hnobody]
    rfl

end Kademlia.Table
