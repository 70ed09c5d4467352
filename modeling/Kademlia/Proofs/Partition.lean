/-
  Kademlia/Proofs/Partition.lean
  ==============================
  **Who is where after a split.**

  A split parts the occupants of the last bucket, number `i`, by whether they share exactly
  `i` bits with the local identifier or more.  The former stay in their slots, so that their
  row has holes (`staying`); the latter follow one another from the first slot of the new
  bucket on (`movers`).  The loop that moves them may stop early, but only with the new
  bucket full, which takes eight movers, and then nobody is left (`Bucket.migrate_empty`).

  After the split the candidate is tried once more, and is put behind the movers, into the
  lowest hole, or nowhere (`Placed`).  A hole is a slot that somebody has just left, because
  a bucket is only split if it is full (`hole_iff`).
-/
import Kademlia.Proofs.Decision
import Kademlia.Proofs.Places

namespace Kademlia.Table

variable {t : Table} {p : Peer} {now : Time} {i : Nat}

/-! ### The two parts of a bucket -/

/-- The row of the last bucket without those who share more than `i` bits. -/
def staying (t : Table) (i : Nat) : Slots :=
  t.last.slots.map (Option.filter fun q => t.localId.sharedBits q.id = i)

/-- Those who share more than `i` bits, in the order of their slots. -/
def movers (t : Table) (i : Nat) : List Peer :=
  t.last.peers.filter fun q => i < t.localId.sharedBits q.id

/-- A row of eight slots with the given peers in the first of them. -/
def packedRow (ps : List Peer) : Slots :=
  Bucket.packed ps (8 - ps.length)

theorem movers_eq (hlast : i + 1 = t.bucketCount) : t.movers i = t.last.peers.filter t.deeper := by
  have hi : t.bucketCount - 1 = i := by simp [← hlast]
  rw [movers, ← hi]
  rfl

/-- Occupants of the last bucket share exactly `i` bits or more. -/
theorem WellFormed.sharedBits_cases (ht : t.WellFormed) (hlast : i + 1 = t.bucketCount)
    {q : Peer} (hq : q ∈ t.last.peers) :
    t.localId.sharedBits q.id = i ∨ i < t.localId.sharedBits q.id := by
  have hle := ht.le_sharedBits_of_last hq
  omega

theorem staying_eq (ht : t.WellFormed) (hlast : i + 1 = t.bucketCount) :
    t.staying i = Slots.vacate t.deeper t.last.slots := by
  apply List.map_congr_left
  intro slot hslot
  cases slot with
  | none => rfl
  | some q =>
    have hq : q ∈ t.last.peers := Slots.mem_occupants.mpr hslot
    have hiff : t.localId.sharedBits q.id = i ↔ t.deeper q = false := by
      have hcases := ht.sharedBits_cases hlast hq
      rw [deeper, decide_eq_false_iff_not]
      omega
    rcases hdeep : t.deeper q with _ | _ <;> simp [Option.filter, hiff, hdeep]

/-- In a full bucket the holes are the slots of those who move. -/
theorem hole_iff (ht : t.WellFormed) (hlast : i + 1 = t.bucketCount)
    (hfull : t.last.peers.length = 8) {j : Nat} :
    (t.staying i)[j]? = some none ↔
      ∃ q, t.last.slots[j]? = some (some q) ∧ i < t.localId.sharedBits q.id := by
  rw [staying, List.getElem?_map, Option.map_eq_some_iff]
  constructor
  · rintro ⟨slot, hslot, hnone⟩
    obtain ⟨q, hq, rfl⟩ := Bucket.exists_occupant hfull hslot
    have hne : t.localId.sharedBits q.id ≠ i := by simpa [Option.filter] using hnone
    exact ⟨q, hslot, (ht.sharedBits_cases hlast hq).resolve_left hne⟩
  · rintro ⟨q, hslot, hlt⟩
    exact ⟨some q, hslot, by simp [Option.filter, Nat.ne_of_gt hlt]⟩

/-- There are `i` buckets before the last one. -/
theorem length_before (hlast : i + 1 = t.bucketCount) : t.buckets.dropLast.length = i := by
  rw [List.length_dropLast, ← bucketCount, ← hlast, Nat.add_sub_cancel]

/-! ### The place of the candidate -/

/-- The answer to a candidate, and the rows of buckets `i` and `i + 1` that go with it. -/
inductive Placed (t : Table) (i : Nat) (p : Peer) : Outcome → Slots → Slots → Prop where
  /-- The new bucket is full of movers. -/
  | refused : i < t.localId.sharedBits p.id → (t.movers i).length = 8 →
      Placed t i p .full (t.staying i) (packedRow (t.movers i))
  /-- The candidate follows the movers. -/
  | behind : i < t.localId.sharedBits p.id → (t.movers i).length < 8 →
      Placed t i p (.added (i + 1)) (t.staying i) (packedRow (t.movers i ++ [p]))
  /-- The candidate takes the first of the slots that movers have left. -/
  | hole {j : Nat} {q : Peer} : t.localId.sharedBits p.id = i →
      t.last.slots[j]? = some (some q) → i < t.localId.sharedBits q.id →
      (∀ k < j, ∀ x, t.last.slots[k]? = some (some x) → t.localId.sharedBits x.id = i) →
      Placed t i p (.added i) ((t.staying i).set j (some p)) (packedRow (t.movers i))

/-- What an insertion that splits bucket `i` leaves behind. -/
structure Partitioned (t : Table) (i : Nat) (p : Peer) (u : Update Outcome) : Prop where
  localId_eq : u.table.localId = t.localId
  bucketCount_eq : u.table.bucketCount = t.bucketCount + 1
  before : ∀ k < i, u.table.bucket? k = t.bucket? k
  exhaustive : ∀ q ∈ t.last.peers,
    t.localId.sharedBits q.id = i ∨ i < t.localId.sharedBits q.id
  halves : ∃ source dest, u.table.bucket? i = some source ∧
    u.table.bucket? (i + 1) = some dest ∧ t.Placed i p u.answer source.slots dest.slots

/-- If the last bucket of `t` has become two, nothing else has to be said of the others. -/
theorem partitioned_of_buckets {u : Update Outcome} {source dest : Bucket} (ht : t.WellFormed)
    (hlast : i + 1 = t.bucketCount) (hlocal : u.table.localId = t.localId)
    (hbuckets : u.table.buckets = t.buckets.dropLast ++ [source, dest])
    (hplaced : t.Placed i p u.answer source.slots dest.slots) : t.Partitioned i p u := by
  have hlen := length_before hlast
  refine ⟨hlocal, ?_, ?_, fun q hq => ht.sharedBits_cases hlast hq, source, dest, ?_, ?_, hplaced⟩
  · rw [← hlast]
    simp [bucketCount, hbuckets, hlen]
  · intro k hk
    have hlt : k < t.buckets.dropLast.length := hlen ▸ hk
    calc u.table.bucket? k = (t.buckets.dropLast ++ [source, dest])[k]? := by rw [bucket?, hbuckets]
      _ = t.buckets.dropLast[k]? := List.getElem?_append_left hlt
      _ = (t.buckets.dropLast ++ [t.last])[k]? := (List.getElem?_append_left hlt).symm
      _ = t.bucket? k := by rw [bucket?, ← t.buckets_eq_last]
  · simp [bucket?, hbuckets, ← hlen]
  · simp [bucket?, hbuckets, ← hlen]

/-! ### The two halves of a split -/

namespace Split

variable {source dest : Bucket} {t₁ : Table}

theorem slots_source_eq (h : t.Split source dest t₁) (ht : t.WellFormed)
    (hlast : i + 1 = t.bucketCount) : source.slots = t.staying i :=
  h.slots_source.trans (staying_eq ht hlast).symm

theorem slots_dest_eq (h : t.Split source dest t₁) (hlast : i + 1 = t.bucketCount) :
    dest.slots = packedRow (t.movers i) := by
  rw [h.packed_dest.slots_eq, packedRow, movers_eq hlast]

theorem setBucket_source (h : t.Split source dest t₁) (hlast : i + 1 = t.bucketCount)
    (b : Bucket) : (t₁.setBucket i b).buckets = t.buckets.dropLast ++ [b, dest] := by
  have hlen := length_before hlast
  simp [setBucket, h.buckets_eq, ← hlen]

theorem setBucket_dest (h : t.Split source dest t₁) (hlast : i + 1 = t.bucketCount)
    (b : Bucket) : (t₁.setBucket (i + 1) b).buckets = t.buckets.dropLast ++ [source, b] := by
  have hlen := length_before hlast
  simp [setBucket, h.buckets_eq, ← hlen]

/-- In the new bucket the candidate comes behind the movers. -/
theorem placed_behind (h : t.Split source dest t₁) (ht : t.WellFormed)
    (hlast : i + 1 = t.bucketCount) (hp : i < t.localId.sharedBits p.id) {b : Bucket}
    (hadd : dest.add p now = .ok b) :
    t.Placed i p (.added (i + 1)) source.slots b.slots := by
  have hpacked := h.packed_dest
  rw [← movers_eq hlast] at hpacked
  have hroom : (t.movers i).length < 8 := hpacked.peers_eq ▸ Bucket.length_lt_of_add_ok hadd
  obtain ⟨room, hfree⟩ : ∃ room, 8 - (t.movers i).length = room + 1 :=
    Nat.exists_eq_succ_of_ne_zero (Nat.sub_ne_zero_of_lt hroom)
  rw [hfree] at hpacked
  obtain ⟨b', hadd', hpacked', -⟩ := hpacked.add p now
  obtain rfl : b = b' := Except.ok.inj (hadd.symm.trans hadd')
  have hleft : room = 8 - (t.movers i ++ [p]).length := by
    rw [List.length_append, List.length_singleton, Nat.sub_add_eq, hfree, Nat.add_sub_cancel]
  have hrow : b.slots = packedRow (t.movers i ++ [p]) := by
    rw [hpacked'.slots_eq, packedRow, hleft]
  rw [h.slots_source_eq ht hlast, hrow]
  exact .behind hp hroom

/-- In the old one it takes the first hole. -/
theorem placed_hole (h : t.Split source dest t₁) (ht : t.WellFormed)
    (hlast : i + 1 = t.bucketCount) (hfull : t.last.peers.length = 8)
    (hp : t.localId.sharedBits p.id = i) {b : Bucket} (hadd : source.add p now = .ok b) :
    t.Placed i p (.added i) b.slots dest.slots := by
  obtain ⟨j, hfree, hrow⟩ := Bucket.add_place hadd
  rw [h.slots_source_eq ht hlast] at hfree hrow
  obtain ⟨hhole, hfirst⟩ := Slots.firstFree?_place hfree
  obtain ⟨q, hq, hdeep⟩ := (hole_iff ht hlast hfull).mp hhole
  rw [hrow, h.slots_dest_eq hlast]
  refine .hole hp hq hdeep ?_
  intro k hk x hx
  have hmem : x ∈ t.last.peers := Slots.mem_occupants.mpr (List.mem_of_getElem? hx)
  refine (ht.sharedBits_cases hlast hmem).resolve_right fun hlt => ?_
  exact hfirst k hk ((hole_iff ht hlast hfull).mpr ⟨x, hx, hlt⟩)

/-- What comes of adding the candidate after the split. -/
theorem partitioned_of_added (h : t.Split source dest t₁) (ht : t.WellFormed)
    (hlast : i + 1 = t.bucketCount) (hfull : t.last.peers.length = 8)
    (hfind : t.findBucket p.id = i) {b : Bucket} (hadd : (t₁.home p.id).add p now = .ok b)
    (events : List Event) :
    t.Partitioned i p
      ⟨.added (t₁.findBucket p.id), t₁.setBucket (t₁.findBucket p.id) b, events⟩ := by
  have hhere : t.findBucket p.id + 1 = t.bucketCount := hfind ▸ hlast
  have hle : i ≤ t.localId.sharedBits p.id := hfind ▸ Nat.min_le_left _ _
  have hdeep : t.deeper p = true ↔ i < t.localId.sharedBits p.id := by
    rw [deeper_iff hhere, hfind]
  rcases hp : t.deeper p with _ | _
  · have hnot : ¬ i < t.localId.sharedBits p.id := by simp [← hdeep, hp]
    have hshared : t.localId.sharedBits p.id = i := Nat.le_antisymm (Nat.le_of_not_lt hnot) hle
    have hsource : t₁.findBucket p.id = i := (h.findBucket_of_stays hp).trans hfind
    rw [h.home_of_stays hhere hp] at hadd
    rw [hsource]
    exact partitioned_of_buckets ht hlast h.localId_eq (h.setBucket_source hlast b)
      (h.placed_hole ht hlast hfull hshared hadd)
  · have hlt := hdeep.mp hp
    have hdest : t₁.findBucket p.id = i + 1 := (h.findBucket_of_deeper hp).trans hlast.symm
    rw [h.home_of_deeper hp] at hadd
    rw [hdest]
    exact partitioned_of_buckets ht hlast h.localId_eq (h.setBucket_dest hlast b)
      (h.placed_behind ht hlast hlt hadd)

/-- It is refused if all nine belong deeper, and then nobody has stayed. -/
theorem partitioned_of_refused (h : t.Split source dest t₁) (ht : t.WellFormed)
    (hlast : i + 1 = t.bucketCount) (hfull : t.last.peers.length = 8)
    (hfind : t.findBucket p.id = i) (hall : ∀ q ∈ p :: t.last.peers, t.deeper q = true)
    (events : List Event) : t.Partitioned i p ⟨.full, t₁, events⟩ := by
  have hlt : i < t.localId.sharedBits p.id := by
    have hp := (deeper_iff (hfind ▸ hlast)).mp (hall p List.mem_cons_self)
    rwa [hfind] at hp
  have hmovers : (t.movers i).length = 8 := by
    rw [movers_eq hlast, ← hfull, List.length_filter_eq_length_iff]
    exact fun x hx => hall x (List.mem_cons_of_mem p hx)
  refine partitioned_of_buckets ht hlast h.localId_eq h.buckets_eq ?_
  rw [h.slots_source_eq ht hlast, h.slots_dest_eq hlast]
  exact .refused hlt hmovers

end Split

/-! ### Insertions that split -/

theorem Insertion.of_grown {u : Update Outcome} (h : Insertion t p now u)
    (hgrown : t.bucketCount < u.table.bucketCount) :
    t.Absent p ∧ t.Blocked p now ∧ t.canSplit (t.findBucket p.id) p.id = true := by
  cases h with
  | self => exact absurd hgrown (Nat.lt_irrefl _)
  | present => exact absurd hgrown (Nat.lt_irrefl _)
  | added _ _ hchange => exact absurd hgrown (Nat.not_lt_of_le hchange.bucketCount_eq.le)
  | replaced _ _ _ _ hchange => exact absurd hgrown (Nat.not_lt_of_le hchange.bucketCount_eq.le)
  | refused => exact absurd hgrown (Nat.lt_irrefl _)
  | addedAfterSplit habsent hblocked hcan => exact ⟨habsent, hblocked, hcan⟩
  | refusedAfterSplit habsent hblocked hcan => exact ⟨habsent, hblocked, hcan⟩

/-- **Splits.**  An insertion that splits the last bucket leaves those before it alone,
    keeps who shares exactly its index many bits where they were, moves all others to the
    front of a new bucket, and puts the candidate behind them or into the first slot they
    left. -/
theorem split_exact (h : t.Reachable) (hlast : i + 1 = t.bucketCount)
    (hgrown : t.bucketCount < (t.insert p now).table.bucketCount) :
    t.Partitioned i p (t.insert p now) := by
  have ht := h.wellFormed
  obtain ⟨habsent, hblocked, hcan⟩ := (insert_cases ht p now).of_grown hgrown
  have hhere := (canSplit_iff.mp hcan).1
  have hfind : t.findBucket p.id = i := Nat.add_right_cancel (hhere.trans hlast.symm)
  have hfull : t.last.peers.length = 8 := home_eq_last hhere ▸ hblocked.full
  obtain ⟨source, dest, hsplit⟩ := t.split_splitLast now
  rw [insert_of_canSplit ht habsent hblocked hcan, addAfterSplit]
  rcases hadd : ((t.splitLast now).table.home p.id).add p now with e | b
  · have hall := (hsplit.length_home_of_canSplit hblocked hcan).mp (Bucket.add_error hadd)
    exact hsplit.partitioned_of_refused ht hlast hfull hfind hall _
  · exact hsplit.partitioned_of_added ht hlast hfull hfind hadd _

/-- A peer that shares exactly `k` bits with the identifier zero, one for each `m` behind. -/
def cousin (k m : Nat) : Peer :=
  Peer.new ((NodeId.zero.flipBit k).flipBit m) (.v4 ⟨Bytes.fill 4 127, 6881⟩)

/-- Eight peers in one bucket, of whom every second one belongs deeper. -/
def clan : Table :=
  ((new .zero).run (([(0, 10), (2, 10), (0, 11), (1, 10), (0, 12), (3, 10), (0, 13), (1, 11)] :
    List (Nat × Nat)).map fun (k, m) => .insert (cousin k m) 0)).2

set_option maxRecDepth 4000 in
/-- A ninth that belongs deeper comes fifth in the new bucket, one that does not takes the
    second slot of the old one. -/
theorem split_exact_clan :
    clan.Reachable ∧ 0 + 1 = clan.bucketCount ∧
      (clan.bucketCount < (clan.insert (cousin 1 12) 0).table.bucketCount ∧
        clan.Partitioned 0 (cousin 1 12) (clan.insert (cousin 1 12) 0) ∧
        (clan.insert (cousin 1 12) 0).table.slot? 1 4 = some (some (cousin 1 12))) ∧
      clan.bucketCount < (clan.insert (cousin 0 14) 0).table.bucketCount ∧
        clan.Partitioned 0 (cousin 0 14) (clan.insert (cousin 0 14) 0) ∧
        (clan.insert (cousin 0 14) 0).table.slot? 0 1 = some (some (cousin 0 14)) := by
  have hreachable : clan.Reachable := (Reachable.new .zero).run _
  have hlast : 0 + 1 = clan.bucketCount := by decide
  have hdeeper : clan.bucketCount < (clan.insert (cousin 1 12) 0).table.bucketCount := by decide
  have hstays : clan.bucketCount < (clan.insert (cousin 0 14) 0).table.bucketCount := by decide
  exact ⟨hreachable, hlast, ⟨hdeeper, split_exact hreachable hlast hdeeper, by decide⟩,
    hstays, split_exact hreachable hlast hstays, by decide⟩

end Kademlia.Table
