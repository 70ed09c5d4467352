/-
  Kademlia/Proofs/Admission.lean
  ==============================
  **Insertions one after the other.**

  Two kinds of runs recur.  A few peers that arrive at a table of one bucket are
  put into its slots in their order, and nothing else happens (`Single.insertAll`).
  A candidate that finds the last bucket full of peers who all belong deeper, as it
  does itself, is refused; but the split moves all of them one bucket on, where the
  same candidate can be refused again (`Contended.retry`), as long as the prefixes
  of the nine are long enough (`Contended.retries`).
-/
import Kademlia.Proofs.Decision

namespace Kademlia.Table

variable {t : Table} {p : Peer} {now : Time}

/-! ### Lists of insertions -/

theorem Insertion.localId_eq {u : Update Outcome} (h : Insertion t p now u) :
    u.table.localId = t.localId := by
  cases h with
  | self => rfl
  | present => rfl
  | added _ _ hchange => exact hchange.localId_eq
  | replaced _ _ _ _ hchange => exact hchange.localId_eq
  | refused => rfl
  | addedAfterSplit _ _ _ hsplit _ hchange => exact hchange.localId_eq.trans hsplit.localId_eq
  | refusedAfterSplit _ _ _ hsplit _ => exact hsplit.localId_eq

theorem localId_insertAll (ht : t.WellFormed) (clock : Nat → Time) (ps : List Peer) :
    (t.insertAll clock ps).table.localId = t.localId := by
  induction ps generalizing t clock with
  | nil => rfl
  | cons p rest ih =>
    exact (ih (wellFormed_insert ht p (clock 0)) fun n => clock (n + 1)).trans
      (insert_cases ht p (clock 0)).localId_eq

theorem insertAll_append (t : Table) (clock : Nat → Time) (ps qs : List Peer) :
    (t.insertAll clock (ps ++ qs)).table =
      ((t.insertAll clock ps).table.insertAll (fun n => clock (n + ps.length)) qs).table := by
  induction ps generalizing t clock with
  | nil => rfl
  | cons p rest ih => exact ih (t.insert p (clock 0)).table fun n => clock (n + 1)

/-! ### A table of one bucket -/

/-- There is one bucket, and its peers are the given ones, packed to the front. -/
def Single (t : Table) (ps : List Peer) : Prop :=
  ∃ b, t.buckets = [b] ∧ b.Packed ps (8 - ps.length)

theorem single_new (localId : NodeId) : (new localId).Single [] :=
  ⟨Bucket.empty 0, rfl, Bucket.packed_empty 0⟩

namespace Single

variable {ps : List Peer}

theorem bucketCount_eq (h : t.Single ps) : t.bucketCount = 1 := by
  obtain ⟨b, hb, -⟩ := h
  rw [bucketCount, hb, List.length_singleton]

theorem findBucket_eq (h : t.Single ps) (id : NodeId) : t.findBucket id = 0 := by
  rw [findBucket, h.bucketCount_eq, Nat.sub_self, Nat.min_zero]

theorem packed_home (h : t.Single ps) (id : NodeId) : (t.home id).Packed ps (8 - ps.length) := by
  obtain ⟨b, hb, hpacked⟩ := h
  have hmem := t.home_mem id
  rw [hb, List.mem_singleton] at hmem
  rwa [hmem]

theorem peers_eq (h : t.Single ps) : t.peers = ps := by
  obtain ⟨b, hb, hpacked⟩ := h
  rw [peers, hb, List.flatMap_singleton, hpacked.peers_eq]

theorem peers_last (h : t.Single ps) : t.last.peers = ps := by
  have hlast : t.findBucket t.localId + 1 = t.bucketCount := by
    rw [h.findBucket_eq, h.bucketCount_eq]
  rw [← home_eq_last hlast, (h.packed_home t.localId).peers_eq]

/-- With room left, the next peer goes into the slot behind the others. -/
theorem insert (h : t.Single ps) (ht : t.WellFormed) (habsent : t.Absent p)
    (hlen : ps.length < 8) (now : Time) :
    ∃ t', t.insert p now = ⟨.added 0, t', []⟩ ∧ t'.Single (ps ++ [p]) := by
  have hpacked := h.packed_home p.id
  have hroom : (t.home p.id).peers.length < 8 := by
    rw [hpacked.peers_eq]
    exact hlen
  obtain ⟨b, hadd, hinsert⟩ := insert_of_room ht habsent hroom now
  rw [show 8 - ps.length = 8 - (ps ++ [p]).length + 1 by
    rw [List.length_append, List.length_singleton]; omega] at hpacked
  obtain ⟨b', hadd', hpacked', -⟩ := hpacked.add p now
  obtain rfl : b = b' := Except.ok.inj (hadd.symm.trans hadd')
  rw [h.findBucket_eq p.id] at hinsert
  refine ⟨t.setBucket 0 b, hinsert, b, ?_, hpacked'⟩
  obtain ⟨c, hc, -⟩ := h
  simp [setBucket, hc]

/-- As long as there is room, whoever arrives is taken in, the local identifier
    apart. -/
theorem insertAll (h : t.Single ps) (ht : t.WellFormed) (clock : Nat → Time) (qs : List Peer)
    (hlen : ps.length + qs.length ≤ 8) (hdistinct : ((ps ++ qs).map Peer.id).Nodup) :
    ∃ t', t.insertAll clock qs =
        ⟨qs.map fun q => if q.id = t.localId then .selfEntry else .added 0, t', []⟩ ∧
      t'.Single (ps ++ qs.filter fun q => q.id ≠ t.localId) := by
  induction qs generalizing t ps clock with
  | nil =>
    refine ⟨t, rfl, ?_⟩
    rw [List.filter_nil, List.append_nil]
    exact h
  | cons q rest ih =>
    rw [List.length_cons] at hlen
    by_cases hself : q.id = t.localId
    · have hkeep : t.insert q (clock 0) = ⟨.selfEntry, t, []⟩ := by
        simp only [Table.insert, if_pos hself]
      have hrest : ((ps ++ rest).map Peer.id).Nodup :=
        hdistinct.sublist (((List.sublist_cons_self q rest).append_left ps).map Peer.id)
      obtain ⟨t', hall, hsingle⟩ := ih h ht (fun n => clock (n + 1)) (by omega) hrest
      refine ⟨t', ?_, ?_⟩
      · simp only [Table.insertAll, hkeep, hall, List.map_cons, if_pos hself, List.nil_append]
      · rwa [List.filter_cons_of_neg (by simpa using hself)]
    · have habsent : t.Absent q := by
        refine ⟨hself, ?_⟩
        intro x hx hid
        rw [h.peers_eq] at hx
        rw [List.map_append, List.nodup_append] at hdistinct
        have hhead : q.id ∈ (q :: rest).map Peer.id := List.mem_map_of_mem List.mem_cons_self
        exact hdistinct.2.2 _ (List.mem_map_of_mem hx) _ hhead hid
      have ht' := wellFormed_insert ht q (clock 0)
      have hlocal := (insert_cases ht q (clock 0)).localId_eq
      obtain ⟨t₁, hadded, hnext⟩ := h.insert ht habsent (by omega) (clock 0)
      rw [hadded] at ht' hlocal
      rw [List.append_cons] at hdistinct
      obtain ⟨t', hall, hsingle⟩ := ih hnext ht' (fun n => clock (n + 1))
        (by rw [List.length_append, List.length_singleton]; omega) hdistinct
      rw [show t₁.localId = t.localId from hlocal] at hall hsingle
      refine ⟨t', ?_, ?_⟩
      · simp only [Table.insertAll, hadded, hall, List.map_cons, if_neg hself, List.nil_append]
      · rwa [List.filter_cons_of_pos (by simpa using hself), List.append_cons]

end Single

/-! ### A candidate that is refused again and again -/

/-- The last bucket is responsible for a candidate, and full of peers that may not
    be displaced. -/
structure Contended (t : Table) (p : Peer) (now : Time) : Prop where
  wellFormed : t.WellFormed
  absent : t.Absent p
  blocked : t.Blocked p now
  last : t.findBucket p.id + 1 = t.bucketCount

namespace Contended

theorem home_eq (h : t.Contended p now) : t.home p.id = t.last :=
  home_eq_last h.last

theorem full (h : t.Contended p now) : t.last.peers.length = 8 := by
  rw [← h.home_eq]
  exact h.blocked.full

/-- Whoever of the nine belongs deeper brings a split about. -/
theorem canSplit (h : t.Contended p now) (hdeeper : ∃ q ∈ p :: t.last.peers, t.deeper q = true) :
    t.canSplit (t.findBucket p.id) p.id = true := by
  obtain ⟨q, hq, hdeep⟩ := hdeeper
  have hlt := bucketCount_lt h.wellFormed h.absent h.last h.full
  exact canSplit_iff.mpr ⟨h.last, hlt.trans (by decide), q, hq, (deeper_iff h.last).mp hdeep⟩

/-- The split, and what the insertion makes of it. -/
theorem insert_cases (h : t.Contended p now)
    (hdeeper : ∃ q ∈ p :: t.last.peers, t.deeper q = true) :
    ∃ source dest t₁, t.Split source dest t₁ ∧
      (((∀ q ∈ p :: t.last.peers, t.deeper q = true) ∧
          (t.insert p now).answer = .full ∧ (t.insert p now).table = t₁) ∨
        ((¬ ∀ q ∈ p :: t.last.peers, t.deeper q = true) ∧
          (t.insert p now).answer = .added (t₁.findBucket p.id) ∧
          t₁.SlotChange (t₁.findBucket p.id) none (some p) (t.insert p now).table)) := by
  have hcan := h.canSplit hdeeper
  have hfull := h.blocked.full
  have hcases := Table.insert_cases h.wellFormed p now
  generalize t.insert p now = u at hcases ⊢
  cases hcases with
  | self hself => exact absurd hself h.absent.foreign
  | present _ hpresent => exact absurd hpresent h.absent.not_present
  | added _ hroom => omega
  | replaced _ _ hmem hstatus =>
    exact absurd ⟨_, hmem, hstatus⟩ h.blocked.not_displaceable
  | refused _ _ hno =>
    rw [hcan] at hno
    cases hno
  | addedAfterSplit _ _ _ hsplit hroom hchange =>
    have hiff := hsplit.length_home h.last h.full hdeeper
    refine ⟨_, _, _, hsplit, Or.inr ⟨?_, rfl, hchange⟩⟩
    intro hall
    have := hiff.mpr hall
    omega
  | refusedAfterSplit _ _ _ hsplit hroom =>
    have hiff := hsplit.length_home h.last h.full hdeeper
    exact ⟨_, _, _, hsplit, Or.inl ⟨hiff.mp hroom, rfl, rfl⟩⟩

theorem bucketCount_insert (h : t.Contended p now)
    (hdeeper : ∃ q ∈ p :: t.last.peers, t.deeper q = true) :
    (t.insert p now).table.bucketCount = t.bucketCount + 1 := by
  obtain ⟨source, dest, t₁, hsplit, hcase⟩ := h.insert_cases hdeeper
  rcases hcase with ⟨-, -, rfl⟩ | ⟨-, -, hchange⟩
  · exact hsplit.bucketCount_eq
  · exact hchange.bucketCount_eq.trans hsplit.bucketCount_eq

/-- If all nine belong deeper, the candidate is refused, and finds the same eight
    peers in its way again. -/
theorem retry (h : t.Contended p now) (hall : ∀ q ∈ p :: t.last.peers, t.deeper q = true) :
    (t.insert p now).answer = .full ∧ (t.insert p now).table.Contended p now ∧
      (t.insert p now).table.last.peers = t.last.peers := by
  have hp := hall p List.mem_cons_self
  obtain ⟨source, dest, t₁, hsplit, hcase⟩ := h.insert_cases ⟨p, List.mem_cons_self, hp⟩
  rcases hcase with ⟨-, hanswer, rfl⟩ | ⟨hnot, -⟩
  · have hhome := hsplit.home_of_deeper hp
    have hdest : dest.peers = t.last.peers := by
      rw [hsplit.packed_dest.peers_eq, List.filter_eq_self]
      intro q hq
      exact hall q (List.mem_cons_of_mem p hq)
    have hlast : (t.insert p now).table.last = dest := by
      simp only [Table.last, hsplit.buckets_eq]
      simp
    refine ⟨hanswer, ⟨hsplit.wellFormed h.wellFormed, hsplit.absent h.absent, ⟨?_, ?_⟩, ?_⟩, ?_⟩
    · rw [hhome, hdest, h.full]
    · rw [hhome, hdest, ← h.home_eq]
      exact h.blocked.kept
    · have hshared : t.bucketCount - 1 < t.localId.sharedBits p.id := by simpa [deeper] using hp
      rw [hsplit.findBucket_eq, hsplit.bucketCount_eq]
      omega
    · rw [hlast, hdest]
  · exact absurd hall hnot

/-- The candidate comes back as often as all nine reach deeper than the last bucket,
    and each time the table grows by one bucket. -/
theorem retries (h : t.Contended p now) (k : Nat)
    (hdeep : ∀ q ∈ p :: t.last.peers, t.bucketCount + k ≤ t.localId.sharedBits q.id + 1) :
    (t.insertAll (fun _ => now) (List.replicate k p)).table.Contended p now ∧
      (t.insertAll (fun _ => now) (List.replicate k p)).table.last.peers = t.last.peers ∧
      (t.insertAll (fun _ => now) (List.replicate k p)).table.bucketCount = t.bucketCount + k := by
  induction k generalizing t with
  | zero => exact ⟨h, rfl, rfl⟩
  | succ k ih =>
    have hpos := t.bucketCount_pos
    have hall : ∀ q ∈ p :: t.last.peers, t.deeper q = true := by
      intro q hq
      have := hdeep q hq
      rw [deeper, decide_eq_true_iff]
      omega
    obtain ⟨-, hagain, hlast⟩ := h.retry hall
    have hcount := h.bucketCount_insert ⟨p, List.mem_cons_self, hall p List.mem_cons_self⟩
    have hlocal := (Table.insert_cases h.wellFormed p now).localId_eq
    obtain ⟨hcontended, hpeers, hgrown⟩ := ih hagain (by
      intro q hq
      rw [hlast] at hq
      rw [hcount, hlocal]
      have := hdeep q hq
      omega)
    refine ⟨hcontended, hpeers.trans hlast, hgrown.trans ?_⟩
    rw [hcount]
    omega

end Contended

end Kademlia.Table
