/-
  Kademlia/Proofs/Invariant.lean
  ==============================
  **Every table that can come about is in order.**

  Each operation keeps the invariant (`wellFormed_perform`), and so do sweeps and
  the insertions with which a table is started; by induction along the way in
  which a table came about it holds of every one (`Reachable.wellFormed`).
  `representation_invariant` spells out what it says.
-/
import Kademlia.Proofs.Insertion
import Kademlia.Proofs.Run

namespace Kademlia.Table

/-! ### One operation -/

theorem Insertion.wellFormed {t : Table} {p : Peer} {now : Time} {u : Update Outcome}
    (h : Insertion t p now u) (ht : t.WellFormed) : u.table.WellFormed := by
  cases h with
  | self => exact ht
  | present => exact ht
  | added habsent _ hchange => exact hchange.wellFormed_of_absent ht habsent
  | replaced habsent _ _ _ hchange => exact hchange.wellFormed_of_absent ht habsent
  | refused => exact ht
  | addedAfterSplit habsent _ _ hsplit _ hchange =>
    exact hchange.wellFormed_of_absent (hsplit.wellFormed ht) (hsplit.absent habsent)
  | refusedAfterSplit _ _ _ hsplit _ => exact hsplit.wellFormed ht

theorem wellFormed_insert {t : Table} (ht : t.WellFormed) (p : Peer) (now : Time) :
    (t.insert p now).table.WellFormed :=
  (insert_cases ht p now).wellFormed ht

theorem wellFormed_remove? {t t' : Table} {id : NodeId} {p : Peer} (ht : t.WellFormed)
    (h : t.remove? id = some (p, t')) : t'.WellFormed := by
  apply (remove?_eq_some h).1.wellFormed ht
  · rintro q ⟨⟩
  · rintro q ⟨⟩
  · rintro q ⟨⟩

theorem wellFormed_editOrKeep {t : Table} (ht : t.WellFormed) (id : NodeId) {f : Peer → Peer}
    (hf : ∀ q, (f q).id = q.id) : (t.editOrKeep id f).WellFormed := by
  rcases editOrKeep_cases ht id f with ⟨old, hchange, hid⟩ | ⟨hsame, -⟩
  · have hmem : old ∈ t.peers := hchange.old_mem
    apply hchange.wellFormed ht
    · rintro q ⟨⟩
      rw [hf, hid]
    · rintro q ⟨⟩
      rw [hf]
      exact ht.foreign old hmem
    · rintro q ⟨⟩ x hx hx'
      rw [hf] at hx'
      exact congrArg some (ht.eq_of_id_eq hmem hx hx'.symm)
  · rw [hsame]
    exact ht

theorem table_perform_markReply (t : Table) (id : NodeId) (now : Time) :
    (t.perform (.markReply id now)).table = t.editOrKeep id (·.markReply now) :=
  t.table_markReply id now

theorem table_perform_markQuery (t : Table) (id : NodeId) (now : Time) :
    (t.perform (.markQuery id now)).table = t.editOrKeep id (·.markQuery now) :=
  t.table_markQuery id now

theorem table_perform_edit (t : Table) (id : NodeId) (plan : Peer → List Edit) :
    (t.perform (.edit id plan)).table = t.editOrKeep id fun p => p.editAll (plan p) := by
  rcases h : t.edit? id (fun p => p.editAll (plan p)) with _ | ⟨p, t'⟩
  · simp only [perform, editOrKeep, h]
  · simp only [perform, editOrKeep, h]

theorem wellFormed_perform {t : Table} (ht : t.WellFormed) (operation : Operation) :
    (t.perform operation).table.WellFormed := by
  cases operation with
  | insert p now => exact wellFormed_insert ht p now
  | remove id =>
    rcases h : t.remove? id with _ | ⟨p, t'⟩
    · simpa only [perform, h] using ht
    · simpa only [perform, h] using wellFormed_remove? ht h
  | markReply id now =>
    rw [table_perform_markReply]
    exact wellFormed_editOrKeep ht id fun _ => rfl
  | markQuery id now =>
    rw [table_perform_markQuery]
    exact wellFormed_editOrKeep ht id fun _ => rfl
  | edit id plan =>
    rw [table_perform_edit]
    exact wellFormed_editOrKeep ht id fun q => q.id_editAll (plan q)

/-! ### Sweeps -/

theorem getElem?_sweepBuckets {σ : Type} (visit : σ → Peer → σ × Peer) (state : σ)
    (buckets : List Bucket) (k : Nat) :
    ∃ s, (sweepBuckets visit state buckets).2[k]? =
      buckets[k]?.map fun b => (b.sweep visit s).2 := by
  induction buckets generalizing state k with
  | nil => exact ⟨state, by simp [sweepBuckets]⟩
  | cons b rest ih =>
    cases k with
    | zero => exact ⟨state, by simp [sweepBuckets]⟩
    | succ k => simpa [sweepBuckets] using ih (b.sweep visit state).1 k

theorem bucket?_sweep {σ : Type} (t : Table) (visit : σ → Peer → σ × Peer) (state : σ) (k : Nat) :
    ∃ s, (t.sweep visit state).2.bucket? k = (t.bucket? k).map fun b => (b.sweep visit s).2 :=
  getElem?_sweepBuckets visit state t.buckets k

theorem findBucket_sweep {σ : Type} (t : Table) (visit : σ → Peer → σ × Peer) (state : σ)
    (id : NodeId) : (t.sweep visit state).2.findBucket id = t.findBucket id := by
  simp only [findBucket, bucketCount, sweep, length_sweepBuckets]

theorem map_peers_sweep {σ α : Type} (visit : σ → Peer → σ × Peer) (f : Peer → α)
    (hvisit : ∀ s p, f (visit s p).2 = f p) (state : σ) (t : Table) :
    (t.sweep visit state).2.peers.map f = t.peers.map f := by
  simp only [peers, sweep]
  generalize t.buckets = buckets
  induction buckets generalizing state with
  | nil => rfl
  | cons b rest ih =>
    simp [sweepBuckets, Bucket.map_peers_sweep visit f hvisit, ih]

theorem wellFormed_sweep {σ : Type} {t : Table} (ht : t.WellFormed)
    (visit : σ → Peer → σ × Peer) (hvisit : ∀ s p, (visit s p).2.id = p.id) (state : σ) :
    (t.sweep visit state).2.WellFormed := by
  have hcases : ∀ (k : Nat) (c : Bucket), (t.sweep visit state).2.buckets[k]? = some c →
      ∃ b s, t.buckets[k]? = some b ∧ c = (b.sweep visit s).2 := by
    intro k c hc
    obtain ⟨s, hs⟩ := t.bucket?_sweep visit state k
    obtain ⟨b, hb, rfl⟩ := Option.map_eq_some_iff.mp (hs.symm.trans hc)
    exact ⟨b, s, hb, rfl⟩
  have hids : (t.sweep visit state).2.peers.map Peer.id = t.peers.map Peer.id :=
    map_peers_sweep visit Peer.id hvisit state t
  constructor
  · intro k c hc
    obtain ⟨b, s, hb, rfl⟩ := hcases k c hc
    exact ht.indexed k b hb
  · intro c hc
    obtain ⟨k, hk⟩ := List.mem_iff_getElem?.mp hc
    obtain ⟨b, s, hb, rfl⟩ := hcases k c hk
    exact Bucket.counted_sweep visit s (ht.counted b (List.mem_of_getElem? hb))
  · intro k c hc p hp
    obtain ⟨b, s, hb, rfl⟩ := hcases k c hc
    -- some peer of the bucket had this identifier before
    have hid : p.id ∈ b.peers.map Peer.id := by
      rw [← Bucket.map_peers_sweep visit Peer.id hvisit s b]
      exact List.mem_map_of_mem hp
    obtain ⟨q, hq, hpq⟩ := List.mem_map.mp hid
    rw [t.findBucket_sweep, ← hpq]
    exact ht.placed k b hb q hq
  · intro p hp
    have hid : p.id ∈ t.peers.map Peer.id := by
      rw [← hids]
      exact List.mem_map_of_mem hp
    obtain ⟨q, hq, hpq⟩ := List.mem_map.mp hid
    rw [← hpq]
    exact ht.foreign q hq
  · rw [hids]
    exact ht.distinct

/-! ### Whole runs -/

theorem wellFormed_insertAll {t : Table} (ht : t.WellFormed) (clock : Nat → Time)
    (ps : List Peer) : (t.insertAll clock ps).table.WellFormed := by
  induction ps generalizing t clock with
  | nil => exact ht
  | cons p rest ih => exact ih (wellFormed_insert ht p (clock 0)) fun n => clock (n + 1)

theorem Reachable.wellFormed {t : Table} (h : t.Reachable) : t.WellFormed := by
  induction h with
  | new localId => exact wellFormed_new localId
  | restore localId contacts clock =>
    exact wellFormed_insertAll (wellFormed_new localId) clock _
  | seed localId target clock _ _ =>
    exact wellFormed_insertAll (wellFormed_new localId) clock _
  | perform operation _ ih => exact wellFormed_perform ih operation
  | sweep plan state _ ih =>
    apply wellFormed_sweep ih
    intro s p
    exact p.id_editAll _

theorem wellFormed_run {t : Table} (ht : t.WellFormed) (operations : List Operation) :
    (t.run operations).2.WellFormed := by
  induction operations generalizing t with
  | nil => exact ht
  | cons operation rest ih => exact ih (wellFormed_perform ht operation)

theorem Reachable.run {t : Table} (h : t.Reachable) (operations : List Operation) :
    (t.run operations).2.Reachable := by
  induction operations generalizing t with
  | nil => exact h
  | cons operation rest ih => exact ih (h.perform operation)

theorem reachable_neighbourhood : neighbourhood.Reachable :=
  (Reachable.new .zero).run _

namespace WellFormed

variable {t : Table}

/-- A bucket that is not the last holds who shares exactly its index many bits. -/
theorem sharedBits_eq (h : t.WellFormed) {k : Nat} {b : Bucket} (hb : t.buckets[k]? = some b)
    (hk : k + 1 < t.bucketCount) {p : Peer} (hp : p ∈ b.peers) :
    t.localId.sharedBits p.id = k := by
  have hplaced := h.placed k b hb p hp
  rw [findBucket] at hplaced
  omega

/-- The last bucket holds who shares at least its index many. -/
theorem le_sharedBits_of_last (h : t.WellFormed) {p : Peer} (hp : p ∈ t.last.peers) :
    t.bucketCount - 1 ≤ t.localId.sharedBits p.id := by
  have hplaced := h.placed _ _ t.getElem?_last p hp
  rw [findBucket] at hplaced
  omega

end WellFormed

/-- **The representation invariant.**  However a table came about, its buckets are
    numbered by their places and count their peers, a bucket before the last
    holds exactly its own subtree, the last one everything deeper, and neither the
    local identifier nor any identifier twice is stored. -/
theorem representation_invariant {t : Table} (h : t.Reachable) :
    0 < t.bucketCount ∧
      (∀ k b, t.bucket? k = some b →
        b.index = k ∧ b.size = Slots.occupied b.slots ∧ b.size ≤ 8) ∧
      (∀ k b, t.bucket? k = some b → k + 1 < t.bucketCount →
        ∀ p ∈ b.peers, t.localId.sharedBits p.id = k) ∧
      (∀ p ∈ t.last.peers, t.last.index ≤ t.localId.sharedBits p.id) ∧
      (∀ p ∈ t.peers, p.id ≠ t.localId) ∧ (t.peers.map Peer.id).Nodup := by
  have hwf := h.wellFormed
  refine ⟨t.bucketCount_pos, ?_, ?_, ?_, hwf.foreign, hwf.distinct⟩
  · intro k b hb
    have hcounted := hwf.counted b (List.mem_of_getElem? hb)
    refine ⟨hwf.indexed k b hb, hcounted, ?_⟩
    rw [hcounted.size_eq]
    exact b.length_peers_le
  · intro k b hb hk p hp
    exact hwf.sharedBits_eq hb hk hp
  · intro p hp
    rw [hwf.indexed _ _ t.getElem?_last]
    exact hwf.le_sharedBits_of_last hp

set_option maxRecDepth 4000 in
theorem representation_invariant_neighbourhood :
    neighbourhood.Reachable ∧ neighbourhood.bucketCount = 2 ∧
      (∀ p ∈ neighbourhood.last.peers,
        neighbourhood.last.index ≤ neighbourhood.localId.sharedBits p.id) ∧
      (∀ p ∈ neighbourhood.peers, p.id ≠ neighbourhood.localId) ∧
      (neighbourhood.peers.map Peer.id).Nodup :=
  ⟨reachable_neighbourhood, by decide,
    (representation_invariant reachable_neighbourhood).2.2.2⟩

end Kademlia.Table
