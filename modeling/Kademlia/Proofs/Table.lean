/-
  Kademlia/Proofs/Table.lean
  ==========================
  **Tables that are in order, and the changes that keep them so.**

  `WellFormed` is the invariant of a table: buckets are numbered by their
  places, counters are right, every peer is in the bucket responsible for its
  identifier, the local identifier is not stored, and no identifier is stored
  twice.

  Two kinds of change make up every operation.  `SlotChange` rewrites one slot
  of one bucket, and `splitLast` appends a bucket and moves to it whoever belongs
  there.  Each is shown to keep the invariant, and is described in terms of the
  peers of the whole table.
-/
import Kademlia.Table.Insert
import Kademlia.Proofs.Bits
import Kademlia.Proofs.Bucket

namespace Kademlia.Table

/-! ### Finding the bucket of an identifier -/

theorem getElem?_findBucket (t : Table) (id : NodeId) :
    t.buckets[t.findBucket id]? = some (t.home id) :=
  List.getElem?_eq_getElem (t.findBucket_lt id)

theorem home_mem (t : Table) (id : NodeId) : t.home id ∈ t.buckets :=
  List.mem_of_getElem? (t.getElem?_findBucket id)

theorem mem_peers {t : Table} {p : Peer} : p ∈ t.peers ↔ ∃ b ∈ t.buckets, p ∈ b.peers := by
  simp [peers]

theorem sublist_peers {t : Table} {b : Bucket} (hb : b ∈ t.buckets) :
    b.peers.Sublist t.peers := by
  rw [peers, List.flatMap_def]
  exact List.sublist_flatten_of_mem (List.mem_map_of_mem hb)

theorem bucketCount_pos (t : Table) : 0 < t.bucketCount :=
  List.length_pos_iff.mpr t.buckets_ne_nil

/-- The row of buckets, cut at the one responsible for an identifier. -/
theorem buckets_split (t : Table) (id : NodeId) :
    ∃ before after, t.buckets = before ++ t.home id :: after ∧
      before.length = t.findBucket id := by
  refine ⟨t.buckets.take (t.findBucket id), t.buckets.drop (t.findBucket id + 1), ?_, ?_⟩
  · have hlt := t.findBucket_lt id
    conv_lhs => rw [← List.take_append_drop (t.findBucket id) t.buckets]
    rw [List.drop_eq_getElem_cons hlt]
    rfl
  · have hlt := t.findBucket_lt id
    rw [List.length_take]
    omega

/-! ### The invariant -/

/-- What holds of every table that can come about. -/
structure WellFormed (t : Table) : Prop where
  indexed : ∀ (k : Nat) (b : Bucket), t.buckets[k]? = some b → b.index = k
  counted : ∀ b ∈ t.buckets, b.Counted
  placed : ∀ (k : Nat) (b : Bucket), t.buckets[k]? = some b → ∀ p ∈ b.peers, t.findBucket p.id = k
  foreign : ∀ p ∈ t.peers, p.id ≠ t.localId
  distinct : (t.peers.map Peer.id).Nodup

theorem wellFormed_new (localId : NodeId) : (new localId).WellFormed where
  indexed := by
    intro k b hb
    rcases k with _ | k
    · have hb : Bucket.empty 0 = b := by simpa [new] using hb
      exact hb ▸ rfl
    · simp [new] at hb
  counted := by
    intro b hb
    have hb : b = Bucket.empty 0 := by simpa [new] using hb
    exact hb ▸ Bucket.counted_empty 0
  placed := by
    intro k b hb p hp
    have hmem := List.mem_of_getElem? hb
    have hb : b = Bucket.empty 0 := by simpa [new] using hmem
    simp [hb] at hp
  foreign := by simp [peers, new]
  distinct := by simp [peers, new]

namespace WellFormed

variable {t : Table}

theorem mem_home (h : t.WellFormed) {p : Peer} (hp : p ∈ t.peers) : p ∈ (t.home p.id).peers := by
  obtain ⟨b, hb, hpb⟩ := mem_peers.mp hp
  obtain ⟨k, hk⟩ := List.mem_iff_getElem?.mp hb
  have hplaced := h.placed k b hk p hpb
  rw [← hplaced, getElem?_findBucket, Option.some.injEq] at hk
  rwa [hk]

theorem contains_home_iff (h : t.WellFormed) {id : NodeId} :
    (t.home id).contains id = true ↔ ∃ q ∈ t.peers, q.id = id := by
  rw [Bucket.contains_iff]
  constructor
  · rintro ⟨q, hq, hid⟩
    exact ⟨q, mem_peers.mpr ⟨_, t.home_mem id, hq⟩, hid⟩
  · rintro ⟨q, hq, rfl⟩
    exact ⟨q, h.mem_home hq, rfl⟩

theorem counted_home (h : t.WellFormed) (id : NodeId) : (t.home id).Counted :=
  h.counted _ (t.home_mem id)

theorem size_eq (h : t.WellFormed) : t.size = t.peers.length := by
  have hcounted := h.counted
  simp only [size, peers]
  generalize t.buckets = buckets at hcounted ⊢
  induction buckets with
  | nil => rfl
  | cons b rest ih =>
    have hrest := ih fun c hc => hcounted c (List.mem_cons_of_mem b hc)
    rw [List.foldr_cons, hrest, List.flatMap_cons, List.length_append,
      (hcounted b List.mem_cons_self).size_eq]

theorem nodup_peers (h : t.WellFormed) : t.peers.Nodup :=
  h.distinct.of_map Peer.id

theorem distinct_of_mem (h : t.WellFormed) {b : Bucket} (hb : b ∈ t.buckets) :
    (b.peers.map Peer.id).Nodup :=
  h.distinct.sublist ((sublist_peers hb).map Peer.id)

/-- An identifier determines the stored peer that bears it. -/
theorem eq_of_id_eq (h : t.WellFormed) {p q : Peer} (hp : p ∈ t.peers) (hq : q ∈ t.peers)
    (hid : p.id = q.id) : p = q :=
  List.inj_on_of_nodup_map h.distinct hp hq hid

end WellFormed

/-! ### Changes to one slot -/

theorem nodup_middle {before after : List Peer} {p : Peer} :
    ((before ++ [p] ++ after).map Peer.id).Nodup ↔
      p.id ∉ (before ++ after).map Peer.id ∧ ((before ++ after).map Peer.id).Nodup := by
  rw [List.append_assoc, List.singleton_append, List.map_append, List.map_cons,
    List.nodup_middle, List.nodup_cons, List.map_append]

/-- Identifiers stay distinct when a peer is replaced by one whose identifier is new,
    or the same. -/
theorem nodup_replace {before after : List Peer} {old new : Option Peer}
    (h : ((before ++ old.toList ++ after).map Peer.id).Nodup)
    (hfresh : ∀ p ∈ new, ∀ q ∈ before ++ old.toList ++ after, q.id = p.id → q ∈ old) :
    ((before ++ new.toList ++ after).map Peer.id).Nodup := by
  have hrest : ((before ++ after).map Peer.id).Nodup := by
    cases old with
    | none => simpa using h
    | some q => exact (nodup_middle.mp h).2
  cases new with
  | none => simpa using hrest
  | some p =>
    apply nodup_middle.mpr
    refine ⟨?_, hrest⟩
    intro hmem
    obtain ⟨q, hq, hid⟩ := List.mem_map.mp hmem
    -- whoever else bore the identifier was the one replaced, and is not stored twice
    have hold : q ∈ old := by
      apply hfresh p rfl q _ hid
      simp only [List.mem_append] at hq ⊢
      tauto
    obtain rfl : old = some q := hold
    exact (nodup_middle.mp h).1 (List.mem_map_of_mem hq)

/-- One slot of the bucket at index `i` held `old` and holds `new` in `t'`;
    everything else is as it was. -/
structure SlotChange (t : Table) (i : Nat) (old new : Option Peer) (t' : Table) : Prop where
  localId_eq : t'.localId = t.localId
  split : ∃ before b b' after, t.buckets = before ++ b :: after ∧
    t'.buckets = before ++ b' :: after ∧ before.length = i ∧ b.SlotChange old new b'

theorem slotChange_setBucket {t : Table} {id : NodeId} {old new : Option Peer} {b' : Bucket}
    (h : (t.home id).SlotChange old new b') :
    t.SlotChange (t.findBucket id) old new (t.setBucket (t.findBucket id) b') := by
  obtain ⟨before, after, hsplit, hlen⟩ := t.buckets_split id
  refine ⟨rfl, before, t.home id, b', after, hsplit, ?_, hlen, h⟩
  simp [setBucket, hsplit, ← hlen]

namespace SlotChange

variable {t t' : Table} {i : Nat} {old new : Option Peer}

theorem bucketCount_eq (h : t.SlotChange i old new t') : t'.bucketCount = t.bucketCount := by
  obtain ⟨before, b, b', after, hb, hb', -, -⟩ := h.split
  simp [bucketCount, hb, hb']

theorem findBucket_eq (h : t.SlotChange i old new t') (id : NodeId) :
    t'.findBucket id = t.findBucket id := by
  rw [findBucket, findBucket, h.localId_eq, h.bucketCount_eq]

/-- In terms of the peers of the table: the new one comes where the old one was. -/
theorem peers_split (h : t.SlotChange i old new t') :
    ∃ before after, t.peers = before ++ old.toList ++ after ∧
      t'.peers = before ++ new.toList ++ after := by
  obtain ⟨before, b, b', after, hb, hb', -, hchange⟩ := h.split
  obtain ⟨left, right, hl, hr⟩ := hchange.peers_split
  refine ⟨before.flatMap Bucket.peers ++ left, right ++ after.flatMap Bucket.peers, ?_, ?_⟩
  · simp [peers, hb, hl]
  · simp [peers, hb', hr]

theorem old_mem {p : Peer} (h : t.SlotChange i (some p) new t') : p ∈ t.peers := by
  obtain ⟨before, after, hl, -⟩ := h.peers_split
  simp [hl]

/-- The table holds the new peer, and whoever it held but the old one. -/
theorem mem_peers_iff (h : t.SlotChange i old new t') (ht : t.WellFormed) {q : Peer} :
    q ∈ t'.peers ↔ q ∈ new ∨ (q ∈ t.peers ∧ q ∉ old) := by
  obtain ⟨before, after, hl, hr⟩ := h.peers_split
  have hdistinct := ht.distinct
  rw [hl] at hdistinct
  rw [hl, hr]
  cases old with
  | none => cases new <;> simp [or_left_comm, @eq_comm _ q]
  | some p =>
    -- the old peer was stored once, so it is neither before nor after its slot
    have hp : p ∉ before ++ after :=
      fun hmem => (nodup_middle.mp hdistinct).1 (List.mem_map_of_mem hmem)
    have hq : q ∈ before ∨ q ∈ after → p ≠ q := by
      rintro hmem rfl
      exact hp (List.mem_append.mpr hmem)
    cases new <;> simp <;> tauto

theorem length_peers (h : t.SlotChange i old new t') :
    t'.peers.length + old.toList.length = t.peers.length + new.toList.length := by
  obtain ⟨before, after, hl, hr⟩ := h.peers_split
  simp only [hl, hr, List.length_append]
  omega

/-- Every bucket but the one at index `i` is where it was. -/
theorem getElem?_cases (h : t.SlotChange i old new t') {k : Nat} {c : Bucket}
    (hc : t'.buckets[k]? = some c) :
    t.buckets[k]? = some c ∨ k = i ∧ ∃ b, t.buckets[i]? = some b ∧ b.SlotChange old new c := by
  obtain ⟨before, b, b', after, hb, hb', rfl, hchange⟩ := h.split
  rw [hb'] at hc
  rcases lt_trichotomy k before.length with hlt | rfl | hgt
  · left
    rw [List.getElem?_append_left hlt] at hc
    rw [hb, List.getElem?_append_left hlt, hc]
  · right
    obtain rfl : b' = c := by simpa using hc
    exact ⟨rfl, b, by simp [hb], hchange⟩
  · left
    obtain ⟨j, rfl⟩ : ∃ j, k = before.length + (j + 1) := ⟨k - before.length - 1, by omega⟩
    rw [List.getElem?_append_right (by omega)] at hc
    rw [hb, List.getElem?_append_right (by omega)]
    simpa using hc

/-- The change keeps the invariant if what is put into the slot belongs there and
    bears an identifier that is new, or that of the peer it displaces. -/
theorem wellFormed (h : t.SlotChange i old new t') (ht : t.WellFormed)
    (hplace : ∀ p ∈ new, t.findBucket p.id = i)
    (hforeign : ∀ p ∈ new, p.id ≠ t.localId)
    (hfresh : ∀ p ∈ new, ∀ q ∈ t.peers, q.id = p.id → q ∈ old) : t'.WellFormed where
  indexed := by
    intro k c hc
    rcases h.getElem?_cases hc with hk | ⟨rfl, b, hb, hchange⟩
    · exact ht.indexed k c hk
    · exact hchange.index_eq.trans (ht.indexed k b hb)
  counted := by
    intro c hc
    obtain ⟨k, hk⟩ := List.mem_iff_getElem?.mp hc
    rcases h.getElem?_cases hk with hk | ⟨rfl, b, hb, hchange⟩
    · exact ht.counted c (List.mem_of_getElem? hk)
    · exact hchange.counted (ht.counted b (List.mem_of_getElem? hb))
  placed := by
    intro k c hc p hp
    rw [h.findBucket_eq]
    rcases h.getElem?_cases hc with hk | ⟨rfl, b, hb, hchange⟩
    · exact ht.placed k c hk p hp
    · obtain ⟨before, after, hl, hr⟩ := hchange.peers_split
      rw [hr, List.mem_append, List.mem_append] at hp
      rcases hp with (hp | hp) | hp
      · exact ht.placed k b hb p (by simp [hl, hp])
      · exact hplace p (by simpa using hp)
      · exact ht.placed k b hb p (by simp [hl, hp])
  foreign := by
    intro p hp
    rw [h.localId_eq]
    obtain ⟨before, after, hl, hr⟩ := h.peers_split
    rw [hr, List.mem_append, List.mem_append] at hp
    rcases hp with (hp | hp) | hp
    · exact ht.foreign p (by simp [hl, hp])
    · exact hforeign p (by simpa using hp)
    · exact ht.foreign p (by simp [hl, hp])
  distinct := by
    obtain ⟨before, after, hl, hr⟩ := h.peers_split
    have hdistinct := ht.distinct
    rw [hl] at hdistinct hfresh
    rw [hr]
    exact nodup_replace hdistinct hfresh

end SlotChange

/-! ### The split of the last bucket -/

theorem buckets_eq_last (t : Table) : t.buckets = t.buckets.dropLast ++ [t.last] :=
  (List.dropLast_concat_getLast t.buckets_ne_nil).symm

theorem getElem?_last (t : Table) : t.buckets[t.bucketCount - 1]? = some t.last := by
  rw [bucketCount, ← List.getLast?_eq_getElem?]
  exact List.getLast?_eq_some_getLast t.buckets_ne_nil

theorem WellFormed.counted_last {t : Table} (h : t.WellFormed) : t.last.Counted :=
  h.counted _ (List.mem_of_getElem? t.getElem?_last)

theorem peers_eq_last (t : Table) :
    t.peers = t.buckets.dropLast.flatMap Bucket.peers ++ t.last.peers := by
  rw [peers, t.buckets_eq_last]
  simp

theorem home_eq_last {t : Table} {id : NodeId} (h : t.findBucket id + 1 = t.bucketCount) :
    t.home id = t.last := by
  have hhome := t.getElem?_findBucket id
  rw [show t.findBucket id = t.bucketCount - 1 by omega, getElem?_last] at hhome
  exact (Option.some.inj hhome).symm

/-- What is where once the last bucket has become two. -/
theorem getElem?_of_parted {t t' : Table} {source dest : Bucket}
    (hbuckets : t'.buckets = t.buckets.dropLast ++ [source, dest]) {k : Nat} {c : Bucket}
    (hc : t'.buckets[k]? = some c) :
    (k + 1 < t.bucketCount ∧ t.buckets[k]? = some c) ∨ (k + 1 = t.bucketCount ∧ c = source) ∨
      (k = t.bucketCount ∧ c = dest) := by
  have hpos := t.bucketCount_pos
  have hlen : t.buckets.dropLast.length = t.bucketCount - 1 := List.length_dropLast
  rw [hbuckets] at hc
  by_cases hlt : k + 1 < t.bucketCount
  · left
    rw [List.getElem?_append_left (by omega)] at hc
    refine ⟨hlt, ?_⟩
    rw [t.buckets_eq_last, List.getElem?_append_left (by omega)]
    exact hc
  · right
    rw [List.getElem?_append_right (by omega), hlen] at hc
    rcases hj : k - (t.bucketCount - 1) with _ | _ | j
    · rw [hj] at hc
      exact Or.inl ⟨by omega, by simpa using hc.symm⟩
    · rw [hj] at hc
      exact Or.inr ⟨by omega, by simpa using hc.symm⟩
    · rw [hj] at hc
      simp at hc

/-- Whether a peer belongs deeper than the last bucket reaches. -/
def deeper (t : Table) (p : Peer) : Bool :=
  t.bucketCount - 1 < t.localId.sharedBits p.id

/-- The last bucket is replaced by `source`, which keeps those who belong there in
    their slots, and by `dest`, which takes all others in their order. -/
structure Split (t : Table) (source dest : Bucket) (t' : Table) : Prop where
  localId_eq : t'.localId = t.localId
  buckets_eq : t'.buckets = t.buckets.dropLast ++ [source, dest]
  index_source : source.index = t.last.index
  slots_source : source.slots = Slots.vacate t.deeper t.last.slots
  counted_source : t.last.Counted → source.Counted
  index_dest : dest.index = t.bucketCount
  packed_dest : dest.Packed (t.last.peers.filter t.deeper)
    (8 - (t.last.peers.filter t.deeper).length)

theorem split_splitLast (t : Table) (now : Time) :
    ∃ source dest, t.Split source dest (t.splitLast now).table := by
  obtain ⟨hindex, hslots, hcounted, hdest, hpacked, -⟩ :=
    Bucket.migrate_empty t.last (t.bucketCount - 1 + 1) t.deeper now
  refine ⟨_, _, rfl, rfl, hindex, hslots, hcounted, hdest.trans ?_, hpacked⟩
  have hpos := t.bucketCount_pos
  omega

namespace Split

variable {t t' : Table} {source dest : Bucket}

theorem peers_source (h : t.Split source dest t') :
    source.peers = t.last.peers.filter fun p => !t.deeper p := by
  rw [Bucket.peers, h.slots_source, Slots.occupants_vacate]
  rfl

theorem bucketCount_eq (h : t.Split source dest t') : t'.bucketCount = t.bucketCount + 1 := by
  have hpos := t.bucketCount_pos
  rw [bucketCount] at hpos ⊢
  rw [h.buckets_eq, List.length_append, List.length_dropLast, bucketCount]
  simp only [List.length_cons, List.length_nil]
  omega

theorem findBucket_eq (h : t.Split source dest t') (id : NodeId) :
    t'.findBucket id = min (t.localId.sharedBits id) t.bucketCount := by
  rw [findBucket, h.localId_eq, h.bucketCount_eq, Nat.add_sub_cancel]

theorem peers_eq (h : t.Split source dest t') :
    t'.peers = t.buckets.dropLast.flatMap Bucket.peers ++
      ((t.last.peers.filter fun p => !t.deeper p) ++ t.last.peers.filter t.deeper) := by
  rw [← h.peers_source, ← h.packed_dest.peers_eq]
  simp [peers, h.buckets_eq]

theorem peers_perm (h : t.Split source dest t') : t'.peers.Perm t.peers := by
  have hlast : ((t.last.peers.filter fun p => !t.deeper p) ++
      t.last.peers.filter t.deeper).Perm t.last.peers :=
    List.perm_append_comm.trans (List.filter_append_perm t.deeper t.last.peers)
  rw [h.peers_eq, t.peers_eq_last]
  exact hlast.append_left _

theorem home_of_deeper (h : t.Split source dest t') {p : Peer} (hp : t.deeper p = true) :
    t'.home p.id = dest := by
  have hlt : t.bucketCount - 1 < t.localId.sharedBits p.id := by simpa [deeper] using hp
  have hpos := t.bucketCount_pos
  have hlen : t.buckets.dropLast.length = t.bucketCount - 1 := List.length_dropLast
  have hhome := t'.getElem?_findBucket p.id
  rw [h.findBucket_eq, h.buckets_eq, List.getElem?_append_right (by omega), hlen,
    show min (t.localId.sharedBits p.id) t.bucketCount - (t.bucketCount - 1) = 1 by omega] at hhome
  exact (Option.some.inj hhome).symm

theorem home_of_stays (h : t.Split source dest t') {p : Peer}
    (hlast : t.findBucket p.id + 1 = t.bucketCount) (hp : t.deeper p = false) :
    t'.home p.id = source := by
  have hle : ¬ t.bucketCount - 1 < t.localId.sharedBits p.id := by simpa [deeper] using hp
  have hlen : t.buckets.dropLast.length = t.bucketCount - 1 := List.length_dropLast
  rw [findBucket] at hlast
  have hhome := t'.getElem?_findBucket p.id
  rw [h.findBucket_eq, h.buckets_eq, List.getElem?_append_right (by omega), hlen,
    show min (t.localId.sharedBits p.id) t.bucketCount - (t.bucketCount - 1) = 0 by omega] at hhome
  exact (Option.some.inj hhome).symm

/-- A peer that belongs deeper goes to the new bucket. -/
theorem findBucket_of_deeper (h : t.Split source dest t') {p : Peer} (hp : t.deeper p = true) :
    t'.findBucket p.id = t.bucketCount := by
  have hlt : t.bucketCount - 1 < t.localId.sharedBits p.id := by simpa [deeper] using hp
  rw [h.findBucket_eq]
  exact Nat.min_eq_right (Nat.le_of_pred_lt hlt)

/-- One that does not stays with the old one. -/
theorem findBucket_of_stays (h : t.Split source dest t') {p : Peer} (hp : t.deeper p = false) :
    t'.findBucket p.id = t.findBucket p.id := by
  have hle : t.localId.sharedBits p.id ≤ t.bucketCount - 1 := by simpa [deeper] using hp
  rw [h.findBucket_eq, findBucket, Nat.min_eq_left hle]
  exact Nat.min_eq_left (hle.trans (Nat.sub_le _ _))

theorem getElem?_cases (h : t.Split source dest t') {k : Nat} {c : Bucket}
    (hc : t'.buckets[k]? = some c) :
    (k + 1 < t.bucketCount ∧ t.buckets[k]? = some c) ∨ (k + 1 = t.bucketCount ∧ c = source) ∨
      (k = t.bucketCount ∧ c = dest) :=
  getElem?_of_parted h.buckets_eq hc

theorem wellFormed (h : t.Split source dest t') (ht : t.WellFormed) : t'.WellFormed where
  indexed := by
    intro k c hc
    have hpos := t.bucketCount_pos
    rcases h.getElem?_cases hc with ⟨-, hk⟩ | ⟨hk, rfl⟩ | ⟨hk, rfl⟩
    · exact ht.indexed k c hk
    · rw [h.index_source, ht.indexed _ _ t.getElem?_last]
      omega
    · exact h.index_dest.trans hk.symm
  counted := by
    intro c hc
    obtain ⟨k, hk⟩ := List.mem_iff_getElem?.mp hc
    rcases h.getElem?_cases hk with ⟨-, hk⟩ | ⟨-, rfl⟩ | ⟨-, rfl⟩
    · exact ht.counted c (List.mem_of_getElem? hk)
    · exact h.counted_source ht.counted_last
    · exact h.packed_dest.counted
  placed := by
    intro k c hc p hp
    rw [h.findBucket_eq]
    rcases h.getElem?_cases hc with ⟨hlt, hk⟩ | ⟨hk, rfl⟩ | ⟨rfl, rfl⟩
    · have hplaced := ht.placed k c hk p hp
      rw [findBucket] at hplaced
      omega
    · -- who stays was in the last bucket, and does not reach past it
      rw [h.peers_source, List.mem_filter] at hp
      have hplaced := ht.placed _ _ t.getElem?_last p hp.1
      have hstays : ¬ t.bucketCount - 1 < t.localId.sharedBits p.id := by
        simpa [deeper] using hp.2
      rw [findBucket] at hplaced
      omega
    · rw [h.packed_dest.peers_eq, List.mem_filter] at hp
      have hdeeper : t.bucketCount - 1 < t.localId.sharedBits p.id := by
        simpa [deeper] using hp.2
      omega
  foreign := by
    intro p hp
    rw [h.localId_eq]
    exact ht.foreign p (h.peers_perm.mem_iff.mp hp)
  distinct := (h.peers_perm.map Peer.id).nodup_iff.mpr ht.distinct

end Split

/-- A change in one of the two halves of a split bucket leaves the buckets before
    them alone. -/
theorem SlotChange.appended {t t₁ t₂ : Table} {source dest : Bucket} {i : Nat}
    {old new : Option Peer} (h : t₁.SlotChange i old new t₂) (hsplit : t.Split source dest t₁)
    (hi : t.bucketCount - 1 ≤ i) :
    ∃ source dest, t₂.buckets = t.buckets.dropLast ++ [source, dest] := by
  obtain ⟨before, b, b', after, hb, hb', hlen, -⟩ := h.split
  have hdrop : t.buckets.dropLast.length = t.bucketCount - 1 := List.length_dropLast
  rw [hsplit.buckets_eq] at hb
  have htotal := congrArg List.length hb
  simp only [List.length_append, List.length_cons, List.length_nil] at htotal
  rcases Nat.eq_or_lt_of_le hi with heq | hlt
  · obtain ⟨rfl, htail⟩ := List.append_inj hb (by omega)
    obtain ⟨-, rfl⟩ := List.cons.inj htail
    exact ⟨b', dest, hb'⟩
  · rw [List.append_cons] at hb
    have hlast : (t.buckets.dropLast ++ [source]).length = before.length := by
      rw [List.length_append, List.length_singleton]
      omega
    obtain ⟨rfl, htail⟩ := List.append_inj hb hlast
    obtain ⟨-, rfl⟩ := List.cons.inj htail
    exact ⟨source, b', by rw [hb', List.append_assoc, List.singleton_append]⟩

end Kademlia.Table
