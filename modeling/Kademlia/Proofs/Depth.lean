/-
  Kademlia/Proofs/Depth.lean
  ==========================
  **How deep a table can become.**

  A split at index `i` takes nine distinct identifiers other than the local one
  that share at least `i` bits with it (`Insertion.bucketCount_cases`).  There are
  `2 ^ (160 - i) - 1` of those, which is too few for `i = 157`; so no table has more
  than 158 buckets, and the greatest number that a split allows is out of reach.

  Every table gets there.  For any local identifier there are nine others that
  differ from it in the last four bits alone (`crowd` and `latecomer`).  The first
  eight fill the only bucket.  The ninth is refused 156 times, each time after a
  split that moves all eight one bucket on, and its last attempt splits bucket 156
  (`bucketCount_run_siege`).
-/
import Kademlia.Proofs.Admission

namespace Kademlia

/-! ### Identifiers that differ in the last byte -/

theorem commonBits_append (as bs cs : List UInt8) :
    commonBits (as ++ bs) (as ++ cs) = 8 * as.length + commonBits bs cs := by
  induction as with
  | nil => simp
  | cons a as ih =>
    rw [List.cons_append, List.cons_append, commonBits, if_pos rfl, ih, List.length_cons]
    omega

namespace NodeId

/-- The identifier that differs by the bits of `m`, all in the last byte. -/
def sibling (id : NodeId) (m : UInt8) : NodeId :=
  ⟨id.bytes.modify 19 (· ^^^ m)⟩

theorem toBytes_sibling (id : NodeId) :
    ∃ first last, first.length = 19 ∧ id.toBytes = first ++ [last] ∧
      ∀ m, (id.sibling m).toBytes = first ++ [last ^^^ m] := by
  have hlen := id.length_toBytes
  have hlt : 19 < id.toBytes.length := by omega
  have hnil : id.toBytes.drop (19 + 1) = [] := List.drop_eq_nil_of_le (by omega)
  refine ⟨id.toBytes.take 19, id.toBytes[19], ?_, ?_, ?_⟩
  · rw [List.length_take]
    omega
  · conv_lhs => rw [← List.take_append_drop 19 id.toBytes, List.drop_eq_getElem_cons hlt, hnil]
  · intro m
    change id.toBytes.modify 19 (· ^^^ m) = _
    rw [List.modify_eq_take_cons_drop hlt, hnil]

theorem sharedBits_sibling (id : NodeId) {m : UInt8} (hm : m ≠ 0) :
    id.sharedBits (id.sibling m) = 152 + byteLeadingZeros m := by
  obtain ⟨first, last, hlen, hid, hsibling⟩ := id.toBytes_sibling
  have hne : last ≠ last ^^^ m := by
    intro heq
    exact hm ((UInt8.xor_right_inj last).mp (heq.symm.trans UInt8.xor_zero.symm))
  rw [sharedBits, hid, hsibling, commonBits_append, hlen, commonBits, if_neg hne,
    ← UInt8.xor_assoc, UInt8.xor_self, UInt8.zero_xor]

theorem sibling_injective (id : NodeId) : Function.Injective id.sibling := by
  intro m n h
  obtain ⟨first, last, -, -, hsibling⟩ := id.toBytes_sibling
  have hbytes := congrArg toBytes h
  rw [hsibling, hsibling] at hbytes
  exact (UInt8.xor_right_inj last).mp (List.singleton_inj.mp (List.append_cancel_left hbytes))

theorem sibling_ne (id : NodeId) {m : UInt8} (hm : m ≠ 0) : id.sibling m ≠ id := by
  intro heq
  have hshared := id.sharedBits_sibling hm
  have hlt := byteLeadingZeros_lt hm
  rw [heq, sharedBits_self] at hshared
  omega

end NodeId

namespace Table

variable {t : Table} {p : Peer} {now : Time}

/-! ### What operations do to the number of buckets -/

/-- An insertion leaves the number of buckets alone or adds one, and it adds none to
    158. -/
theorem Insertion.bucketCount_cases {u : Update Outcome} (h : Insertion t p now u)
    (ht : t.WellFormed) :
    u.table.bucketCount = t.bucketCount ∨
      t.bucketCount < 158 ∧ u.table.bucketCount = t.bucketCount + 1 := by
  have hroom : t.Absent p → t.Blocked p now → t.canSplit (t.findBucket p.id) p.id = true →
      t.bucketCount < 158 := by
    intro habsent hblocked hyes
    have hlast := (canSplit_iff.mp hyes).1
    exact bucketCount_lt ht habsent hlast (home_eq_last hlast ▸ hblocked.full)
  cases h with
  | self => exact Or.inl rfl
  | present => exact Or.inl rfl
  | added _ _ hchange => exact Or.inl hchange.bucketCount_eq
  | replaced _ _ _ _ hchange => exact Or.inl hchange.bucketCount_eq
  | refused => exact Or.inl rfl
  | addedAfterSplit habsent hblocked hyes hsplit _ hchange =>
    exact Or.inr ⟨hroom habsent hblocked hyes, hchange.bucketCount_eq.trans hsplit.bucketCount_eq⟩
  | refusedAfterSplit habsent hblocked hyes hsplit _ =>
    exact Or.inr ⟨hroom habsent hblocked hyes, hsplit.bucketCount_eq⟩

theorem bucketCount_editOrKeep (ht : t.WellFormed) (id : NodeId) (f : Peer → Peer) :
    (t.editOrKeep id f).bucketCount = t.bucketCount := by
  rcases editOrKeep_cases ht id f with ⟨old, hchange, -⟩ | ⟨hsame, -⟩
  · exact hchange.bucketCount_eq
  · rw [hsame]

theorem bucketCount_sweepEdits {σ : Type} (t : Table) (plan : σ → Peer → σ × List Edit)
    (state : σ) : (t.sweepEdits plan state).bucketCount = t.bucketCount :=
  length_sweepBuckets _ state t.buckets

/-- Only insertions change the number of buckets. -/
theorem bucketCount_perform_cases (ht : t.WellFormed) (operation : Operation) :
    (t.perform operation).table.bucketCount = t.bucketCount ∨
      t.bucketCount < 158 ∧ (t.perform operation).table.bucketCount = t.bucketCount + 1 := by
  cases operation with
  | insert p now => exact (insert_cases ht p now).bucketCount_cases ht
  | remove id =>
    rcases h : t.remove? id with _ | ⟨p, t'⟩
    · simp only [perform, h]
      exact Or.inl trivial
    · simp only [perform, h]
      exact Or.inl (remove?_eq_some h).1.bucketCount_eq
  | markReply id now =>
    rw [table_perform_markReply]
    exact Or.inl (bucketCount_editOrKeep ht id _)
  | markQuery id now =>
    rw [table_perform_markQuery]
    exact Or.inl (bucketCount_editOrKeep ht id _)
  | edit id plan =>
    rw [table_perform_edit]
    exact Or.inl (bucketCount_editOrKeep ht id _)

/-! ### The bound -/

theorem bucketCount_insertAll_le (ht : t.WellFormed) (hle : t.bucketCount ≤ 158)
    (clock : Nat → Time) (ps : List Peer) : (t.insertAll clock ps).table.bucketCount ≤ 158 := by
  induction ps generalizing t clock with
  | nil => exact hle
  | cons p rest ih =>
    apply ih (wellFormed_insert ht p (clock 0))
    rcases (insert_cases ht p (clock 0)).bucketCount_cases ht with hsame | ⟨hlt, hgrown⟩
    · omega
    · omega

theorem bucketCount_new (localId : NodeId) : (new localId).bucketCount = 1 := rfl

theorem Reachable.bucketCount_le (h : t.Reachable) : t.bucketCount ≤ 158 := by
  induction h with
  | new localId => rw [bucketCount_new]; decide
  | restore localId contacts clock =>
    apply bucketCount_insertAll_le (wellFormed_new localId)
    rw [bucketCount_new]
    decide
  | seed localId target clock _ _ =>
    apply bucketCount_insertAll_le (wellFormed_new localId)
    rw [bucketCount_new]
    decide
  | perform operation h ih =>
    rcases bucketCount_perform_cases h.wellFormed operation with hsame | ⟨hlt, hgrown⟩
    · omega
    · omega
  | sweep plan state _ ih => rwa [bucketCount_sweepEdits]

/-- The greatest number of buckets never stands in the way of a split. -/
theorem Reachable.canSplit_iff_of_deeper (h : t.Reachable) (i : Nat) (id : NodeId) :
    t.canSplit i id = true ↔ i + 1 = t.bucketCount ∧
      (i < t.localId.sharedBits id ∨ ∃ q ∈ t.last.peers, i < t.localId.sharedBits q.id) := by
  have hle := h.bucketCount_le
  have hlt : t.bucketCount < maxBuckets := Nat.lt_of_le_of_lt hle (by decide)
  simp [canSplit, hlt]

/-! ### A run that reaches the bound -/

theorem run_insertions (t : Table) (now : Time) (ps : List Peer) :
    (t.run (ps.map fun p => .insert p now)).2 = (t.insertAll (fun _ => now) ps).table := by
  induction ps generalizing t with
  | nil => rfl
  | cons p rest ih => exact ih (t.insert p now).table

def siblingPeer (localId : NodeId) (m : UInt8) : Peer :=
  Peer.new (localId.sibling m) (.v4 ⟨Bytes.fill 4 127, 6881⟩)

/-- Eight peers that share all but the last four bits with the local identifier. -/
def crowd (localId : NodeId) : List Peer :=
  [2, 3, 4, 5, 6, 7, 8, 9].map (siblingPeer localId)

/-- A ninth one, which shares all bits but the last. -/
def latecomer (localId : NodeId) : Peer :=
  siblingPeer localId 1

theorem le_sharedBits_crowd (localId : NodeId) :
    ∀ q ∈ latecomer localId :: crowd localId, 156 ≤ localId.sharedBits q.id := by
  have hbits : ([1, 2, 3, 4, 5, 6, 7, 8, 9] : List UInt8).all
      (fun m => m != 0 && decide (4 ≤ byteLeadingZeros m)) = true := by decide
  intro q hq
  obtain ⟨m, hm, rfl⟩ : ∃ m ∈ ([1, 2, 3, 4, 5, 6, 7, 8, 9] : List UInt8),
      siblingPeer localId m = q := List.mem_map.mp hq
  have hm : m ≠ 0 ∧ 4 ≤ byteLeadingZeros m := by
    simpa using List.all_eq_true.mp hbits m hm
  obtain ⟨hne, hle⟩ := hm
  change 156 ≤ localId.sharedBits (localId.sibling m)
  rw [localId.sharedBits_sibling hne]
  omega

theorem sharedBits_latecomer (localId : NodeId) :
    localId.sharedBits (latecomer localId).id = 159 :=
  localId.sharedBits_sibling (by decide)

theorem foreign_crowd (localId : NodeId) :
    ∀ q ∈ latecomer localId :: crowd localId, q.id ≠ localId := by
  intro q hq
  obtain ⟨m, hm, rfl⟩ : ∃ m ∈ ([1, 2, 3, 4, 5, 6, 7, 8, 9] : List UInt8),
      siblingPeer localId m = q := List.mem_map.mp hq
  apply localId.sibling_ne
  rintro rfl
  exact absurd hm (by decide)

theorem nodup_crowd (localId : NodeId) :
    ((latecomer localId :: crowd localId).map Peer.id).Nodup := by
  have hnodup : ([1, 2, 3, 4, 5, 6, 7, 8, 9] : List UInt8).Nodup := by decide
  change (List.map localId.sibling [1, 2, 3, 4, 5, 6, 7, 8, 9]).Nodup
  exact hnodup.map localId.sibling_injective

theorem length_crowd (localId : NodeId) : (crowd localId).length = 8 := rfl

/-- The crowd was never contacted, so nobody in it is bad or questionable. -/
theorem status_crowd (localId : NodeId) (now : Time) :
    ∀ q ∈ crowd localId, q.status now = .unknown := by
  intro q hq
  obtain ⟨m, -, rfl⟩ := List.mem_map.mp hq
  rfl

theorem single_crowd (localId : NodeId) (now : Time) :
    ((new localId).insertAll (fun _ => now) (crowd localId)).table.Single (crowd localId) := by
  have hnodup := nodup_crowd localId
  rw [List.map_cons, List.nodup_cons] at hnodup
  obtain ⟨t, hinsert, hsingle⟩ := (single_new localId).insertAll (wellFormed_new localId)
    (fun _ => now) (crowd localId) (by simp [length_crowd]) hnodup.2
  have hall : (crowd localId).filter (fun q => q.id ≠ (new localId).localId) = crowd localId := by
    rw [List.filter_eq_self]
    intro q hq
    have hne : q.id ≠ (new localId).localId :=
      foreign_crowd localId q (List.mem_cons_of_mem _ hq)
    simpa using hne
  rwa [hinsert, ← hall]

/-- The crowd fills the only bucket, and is in the way of the latecomer. -/
theorem contended_crowd (localId : NodeId) (now : Time) :
    ((new localId).insertAll (fun _ => now) (crowd localId)).table.Contended
      (latecomer localId) now := by
  have hnew := wellFormed_new localId
  have hsingle := single_crowd localId now
  have hhome := hsingle.packed_home (latecomer localId).id
  have hnodup := nodup_crowd localId
  rw [List.map_cons, List.nodup_cons] at hnodup
  refine ⟨wellFormed_insertAll hnew _ _, ⟨?_, ?_⟩, ⟨?_, ?_⟩, ?_⟩
  · rw [localId_insertAll hnew]
    exact foreign_crowd localId _ List.mem_cons_self
  · intro q hq hid
    rw [hsingle.peers_eq] at hq
    apply hnodup.1
    rw [← hid]
    exact List.mem_map_of_mem hq
  · rw [hhome.peers_eq]
    exact length_crowd localId
  · intro q hq
    rw [hhome.peers_eq] at hq
    simp [status_crowd localId now q hq]
  · rw [hsingle.findBucket_eq, hsingle.bucketCount_eq]

/-- The crowd arrives, and then the latecomer, again and again. -/
def siege (localId : NodeId) : List Peer :=
  crowd localId ++ (List.replicate 156 (latecomer localId) ++ [latecomer localId])

theorem bucketCount_run_siege (localId : NodeId) (now : Time) :
    ((new localId).run ((siege localId).map fun p => .insert p now)).2.bucketCount = 158 := by
  have hsingle := single_crowd localId now
  have hlocal := localId_insertAll (wellFormed_new localId) (fun _ => now) (crowd localId)
  have hcontended := contended_crowd localId now
  rw [run_insertions, siege, insertAll_append, insertAll_append]
  generalize ((new localId).insertAll (fun _ => now) (crowd localId)).table = t at *
  -- as long as the last bucket is before number 156, all nine belong deeper
  obtain ⟨hagain, -, hcount⟩ := hcontended.retries 156 (by
    intro q hq
    rw [hsingle.peers_last] at hq
    have hshared : 156 ≤ t.localId.sharedBits q.id := hlocal ▸ le_sharedBits_crowd localId q hq
    rw [hsingle.bucketCount_eq]
    omega)
  have hlocal' := localId_insertAll hcontended.wellFormed (fun _ => now)
    (List.replicate 156 (latecomer localId))
  rw [hsingle.bucketCount_eq] at hcount
  generalize (t.insertAll (fun _ => now) (List.replicate 156 (latecomer localId))).table = t' at *
  -- in bucket 156 at least the latecomer does
  have hdeeper : t'.deeper (latecomer localId) = true := by
    have hshared : t'.localId.sharedBits (latecomer localId).id = 159 := by
      rw [hlocal', hlocal]
      exact sharedBits_latecomer localId
    rw [deeper, decide_eq_true_iff, hshared, hcount]
    decide
  change (t'.insert (latecomer localId) now).table.bucketCount = 158
  rw [hagain.bucketCount_insert ⟨_, List.mem_cons_self, hdeeper⟩, hcount]

/-! ### The depth of tables -/

/-- **The depth of tables.**  No table that can come about has more than 158 buckets:
    each insertion adds one at most, nothing takes one away, and it is never the
    greatest number of buckets that refuses a split.  For every local identifier
    some run of insertions makes 158 of them. -/
theorem depth_bound :
    (∀ t : Table, t.Reachable → t.bucketCount ≤ 158 ∧
      (∀ p now, (t.insert p now).table.bucketCount ≤ t.bucketCount + 1) ∧
      (∀ operation, t.bucketCount ≤ (t.perform operation).table.bucketCount) ∧
      (∀ (σ : Type) (plan : σ → Peer → σ × List Edit) (state : σ),
        t.bucketCount ≤ (t.sweepEdits plan state).bucketCount) ∧
      ∀ i id, t.canSplit i id = true ↔ i + 1 = t.bucketCount ∧
        (i < t.localId.sharedBits id ∨ ∃ q ∈ t.last.peers, i < t.localId.sharedBits q.id)) ∧
    ∀ (localId : NodeId) (now : Time), ∃ ps : List Peer,
      ((new localId).run (ps.map fun p => .insert p now)).2.bucketCount = 158 := by
  refine ⟨?_, fun localId now => ⟨siege localId, bucketCount_run_siege localId now⟩⟩
  intro t h
  refine ⟨h.bucketCount_le, ?_, ?_, ?_, h.canSplit_iff_of_deeper⟩
  · intro p now
    rcases (insert_cases h.wellFormed p now).bucketCount_cases h.wellFormed with heq | ⟨-, heq⟩
    · omega
    · omega
  · intro operation
    rcases bucketCount_perform_cases h.wellFormed operation with heq | ⟨-, heq⟩
    · omega
    · omega
  · intro σ plan state
    rw [bucketCount_sweepEdits]

theorem depth_bound_neighbourhood :
    neighbourhood.Reachable ∧ neighbourhood.bucketCount ≤ 158 ∧
      1 < neighbourhood.localId.sharedBits (neighbour 9).id ∧
      neighbourhood.canSplit 1 (neighbour 9).id = true := by
  have hdepth := depth_bound.1 neighbourhood reachable_neighbourhood
  have hshared : 1 < neighbourhood.localId.sharedBits (neighbour 9).id := by decide
  exact ⟨reachable_neighbourhood, hdepth.1, hshared,
    (hdepth.2.2.2.2 1 _).mpr ⟨by decide, Or.inl hshared⟩⟩

end Table

end Kademlia
