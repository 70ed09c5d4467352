/-
  Kademlia/Proofs/Decision.lean
  =============================
  **How an insertion ends, decided from the table alone.**

  `insert_cases` lists the possible endings; here each is matched with the
  condition under which it comes about.  Two points take an argument.  A split is
  never refused because the table has its greatest number of buckets: nine
  distinct identifiers and the local one do not fit behind a prefix that long
  (`bucketCount_lt`).  And the bucket that a split leaves to the candidate is full
  only if all nine of them belong deeper (`Split.length_home`).
-/
import Kademlia.Proofs.Invariant

namespace Kademlia.Table

variable {t : Table} {p : Peer} {now : Time}

/-! ### Whether a split is tried -/

theorem canSplit_iff :
    t.canSplit (t.findBucket p.id) p.id = true ↔
      t.findBucket p.id + 1 = t.bucketCount ∧ t.bucketCount < 160 ∧
        ∃ q ∈ p :: t.last.peers, t.findBucket p.id < t.localId.sharedBits q.id := by
  unfold canSplit
  rw [Bool.and_eq_true, Bool.and_eq_true, decide_eq_true_iff, decide_eq_true_iff, and_assoc]
  simp [maxBuckets]

/-- A table whose last bucket is full, and that is asked to take one more peer there,
    can still grow: fewer than ten identifiers share 157 bits with the local one. -/
theorem bucketCount_lt (ht : t.WellFormed) (habsent : t.Absent p)
    (hlast : t.findBucket p.id + 1 = t.bucketCount) (hfull : t.last.peers.length = 8) :
    t.bucketCount < 158 := by
  -- the local identifier, the candidate's and the occupants' share that many bits
  let ids := t.localId :: p.id :: t.last.peers.map Peer.id
  have hsub : ∀ q ∈ t.last.peers, q ∈ t.peers := by
    intro q hq
    rw [t.peers_eq_last]
    exact List.mem_append_right _ hq
  have hnodup : ids.Nodup := by
    have hdistinct := ht.distinct
    rw [t.peers_eq_last, List.map_append] at hdistinct
    refine List.nodup_cons.mpr ⟨?_, List.nodup_cons.mpr ⟨?_, hdistinct.of_append_right⟩⟩
    · intro hmem
      rcases List.mem_cons.mp hmem with hid | hid
      · exact habsent.foreign hid.symm
      · obtain ⟨q, hq, hqid⟩ := List.mem_map.mp hid
        exact ht.foreign q (hsub q hq) hqid
    · intro hmem
      obtain ⟨q, hq, hqid⟩ := List.mem_map.mp hmem
      exact habsent.fresh q (hsub q hq) hqid
  have hp : t.bucketCount - 1 ≤ t.localId.sharedBits p.id := by
    rw [findBucket] at hlast
    omega
  have hshared : ∀ id ∈ ids, t.bucketCount - 1 ≤ t.localId.sharedBits id := by
    intro id hid
    rcases List.mem_cons.mp hid with rfl | hid
    · have hle := NodeId.sharedBits_le t.localId p.id
      rw [NodeId.sharedBits_self]
      omega
    · rcases List.mem_cons.mp hid with rfl | hid
      · exact hp
      · obtain ⟨q, hq, rfl⟩ := List.mem_map.mp hid
        exact ht.le_sharedBits_of_last hq
  have hten : 10 ≤ 2 ^ (160 - (t.bucketCount - 1)) := by
    have hcount := NodeId.length_le_of_sharing t.localId _ ids hnodup hshared
    simpa [ids, hfull] using hcount
  by_contra hge
  have hexp : 160 - (t.bucketCount - 1) ≤ 3 := by omega
  have hpow := Nat.pow_le_pow_right (show 0 < 2 by decide) hexp
  omega

/-! ### What a split leaves to the candidate -/

theorem deeper_iff (hlast : t.findBucket p.id + 1 = t.bucketCount) {q : Peer} :
    t.deeper q = true ↔ t.findBucket p.id < t.localId.sharedBits q.id := by
  rw [deeper, decide_eq_true_iff, ← hlast, Nat.add_sub_cancel]

/-- After a split the bucket of the candidate is full only if all occupants and the
    candidate went deeper. -/
theorem Split.length_home {source dest : Bucket} {t₁ : Table} (h : t.Split source dest t₁)
    (hlast : t.findBucket p.id + 1 = t.bucketCount) (hfull : t.last.peers.length = 8)
    (hhelps : ∃ q ∈ p :: t.last.peers, t.deeper q = true) :
    (t₁.home p.id).peers.length = 8 ↔ ∀ q ∈ p :: t.last.peers, t.deeper q = true := by
  rcases hp : t.deeper p with _ | _
  · -- the candidate stays, and somebody else makes room for it
    rw [h.home_of_stays hlast hp, h.peers_source]
    constructor
    · intro hlen
      obtain ⟨q, hq, hdeeper⟩ := hhelps
      have hstay : ∀ x ∈ t.last.peers, (!t.deeper x) = true := by
        apply List.length_filter_eq_length_iff.mp
        rw [hlen, hfull]
      rcases List.mem_cons.mp hq with rfl | hq
      · rw [hp] at hdeeper
        cases hdeeper
      · have hnot := hstay q hq
        rw [hdeeper] at hnot
        cases hnot
    · intro hall
      have hdeeper := hall p List.mem_cons_self
      rw [hp] at hdeeper
      cases hdeeper
  · rw [h.home_of_deeper hp, h.packed_dest.peers_eq, ← hfull, List.length_filter_eq_length_iff]
    constructor
    · intro hall q hq
      rcases List.mem_cons.mp hq with rfl | hq
      · exact hp
      · exact hall q hq
    · intro hall q hq
      exact hall q (List.mem_cons_of_mem p hq)

/-- Whenever a split is tried, somebody belongs deeper. -/
theorem Split.length_home_of_canSplit {source dest : Bucket} {t₁ : Table}
    (h : t.Split source dest t₁) (hblocked : t.Blocked p now)
    (hcan : t.canSplit (t.findBucket p.id) p.id = true) :
    (t₁.home p.id).peers.length = 8 ↔ ∀ q ∈ p :: t.last.peers, t.deeper q = true := by
  obtain ⟨hlast, -, q, hq, hdeeper⟩ := canSplit_iff.mp hcan
  have hfull : t.last.peers.length = 8 := home_eq_last hlast ▸ hblocked.full
  exact h.length_home hlast hfull ⟨q, hq, (deeper_iff hlast).mpr hdeeper⟩

theorem Split.peers_eq_of_deeper {source dest : Bucket} {t₁ : Table} (h : t.Split source dest t₁)
    (hall : ∀ q ∈ t.last.peers, t.deeper q = true) : t₁.peers = t.peers := by
  have hnone : (t.last.peers.filter fun p => !t.deeper p) = [] := by
    apply List.filter_eq_nil_iff.mpr
    intro q hq
    simp [hall q hq]
  rw [h.peers_eq, hnone, List.filter_eq_self.mpr hall, t.peers_eq_last, List.nil_append]

/-! ### The decision table -/

/-- The decision table of an insertion: `u` is what comes of inserting `p` at `now`.
    The conditions speak of the table before; `i` is the index of the bucket
    responsible for the peer, and `b` is that bucket. -/
def Decided (t : Table) (p : Peer) (now : Time) (u : Update Outcome) : Prop :=
  let shared (q : Peer) := t.localId.sharedBits q.id
  let i := min (shared p) (t.bucketCount - 1)
  ∃ b, t.bucket? i = some b ∧
    if p.id = t.localId then u.answer = .selfEntry ∧ u.table = t
    else if ∃ q ∈ t.peers, q.id = p.id then u.answer = .alreadyPresent ∧ u.table = t
    else if b.peers.length < 8 then
      u.answer = .added i ∧ u.table.bucketCount = t.bucketCount
    else if ∃ q ∈ b.peers, q.status now = .bad ∨ q.status now = .questionable then
      (∃ q ∈ b.peers, u.answer = .replaced i q) ∧ u.table.bucketCount = t.bucketCount
    else if i + 1 ≠ t.bucketCount ∨ ∀ q ∈ p :: b.peers, ¬ i < shared q then
      u.answer = .full ∧ u.table = t
    else
      (∃ source dest, u.table.buckets = t.buckets.dropLast ++ [source, dest]) ∧
        if ∀ q ∈ p :: b.peers, i < shared q then u.answer = .full ∧ u.table.peers = t.peers
        else u.answer = .added (min (shared p) (i + 1))

variable {u : Update Outcome}

theorem Absent.not_present (h : t.Absent p) : ¬ ∃ q ∈ t.peers, q.id = p.id := by
  rintro ⟨q, hq, hid⟩
  exact h.fresh q hq hid

theorem Blocked.not_displaceable (h : t.Blocked p now) :
    ¬ ∃ q ∈ (t.home p.id).peers, q.status now = .bad ∨ q.status now = .questionable := by
  rintro ⟨q, hq, hstatus⟩
  rcases hstatus with hbad | hquestionable
  · exact (h.kept q hq).1 hbad
  · exact (h.kept q hq).2 hquestionable

/-- For an absent peer and a bucket that gives up no slot, the table comes down to
    the question of a split. -/
theorem decided_of_blocked (habsent : t.Absent p) (hblocked : t.Blocked p now)
    (h : if t.findBucket p.id + 1 ≠ t.bucketCount ∨
        ∀ q ∈ p :: (t.home p.id).peers, ¬ t.findBucket p.id < t.localId.sharedBits q.id then
        u.answer = .full ∧ u.table = t
      else
        (∃ source dest, u.table.buckets = t.buckets.dropLast ++ [source, dest]) ∧
          if ∀ q ∈ p :: (t.home p.id).peers, t.findBucket p.id < t.localId.sharedBits q.id then
            u.answer = .full ∧ u.table.peers = t.peers
          else u.answer = .added (min (t.localId.sharedBits p.id) (t.findBucket p.id + 1))) :
    t.Decided p now u := by
  refine ⟨t.home p.id, t.getElem?_findBucket p.id, ?_⟩
  have hfull := hblocked.full
  rw [if_neg habsent.foreign, if_neg habsent.not_present, if_neg (by omega),
    if_neg hblocked.not_displaceable]
  exact h

theorem decided_of_refused (ht : t.WellFormed) (habsent : t.Absent p) (hblocked : t.Blocked p now)
    (hno : t.canSplit (t.findBucket p.id) p.id = false) {events : List Event} :
    t.Decided p now ⟨.full, t, events⟩ := by
  apply decided_of_blocked habsent hblocked
  rw [if_pos]
  · exact ⟨rfl, rfl⟩
  · by_cases hlast : t.findBucket p.id + 1 = t.bucketCount
    · right
      intro q hq hdeeper
      rw [home_eq_last hlast] at hq
      have hfull : t.last.peers.length = 8 := home_eq_last hlast ▸ hblocked.full
      have hyes := canSplit_iff.mpr
        ⟨hlast, (bucketCount_lt ht habsent hlast hfull).trans (by decide), q, hq, hdeeper⟩
      rw [hno] at hyes
      cases hyes
    · exact Or.inl hlast

/-- What is said of a split bucket, in both endings. -/
theorem decided_of_split {source dest : Bucket} {t₁ : Table} (habsent : t.Absent p)
    (hblocked : t.Blocked p now) (hyes : t.canSplit (t.findBucket p.id) p.id = true)
    (hsplit : t.Split source dest t₁)
    (happended : ∃ source dest, u.table.buckets = t.buckets.dropLast ++ [source, dest])
    (hfull : (t₁.home p.id).peers.length = 8 → u.answer = .full ∧ u.table = t₁)
    (hroom : (t₁.home p.id).peers.length ≠ 8 → u.answer = .added (t₁.findBucket p.id)) :
    t.Decided p now u := by
  obtain ⟨hlast, -, q, hq, hdeeper⟩ := canSplit_iff.mp hyes
  have hhome := home_eq_last hlast
  have hiff : (t₁.home p.id).peers.length = 8 ↔
      ∀ q ∈ p :: t.last.peers, t.findBucket p.id < t.localId.sharedBits q.id := by
    rw [hsplit.length_home_of_canSplit hblocked hyes]
    simp only [deeper_iff hlast]
  apply decided_of_blocked habsent hblocked
  rw [hhome, if_neg]
  · refine ⟨happended, ?_⟩
    by_cases hall : ∀ q ∈ p :: t.last.peers, t.findBucket p.id < t.localId.sharedBits q.id
    · rw [if_pos hall]
      obtain ⟨hanswer, htable⟩ := hfull (hiff.mpr hall)
      refine ⟨hanswer, ?_⟩
      rw [htable]
      apply hsplit.peers_eq_of_deeper
      intro q hq
      exact (deeper_iff hlast).mpr (hall q (List.mem_cons_of_mem p hq))
    · rw [if_neg hall, hroom fun h => hall (hiff.mp h), hsplit.findBucket_eq, hlast]
  · rintro (hne | hnone)
    · exact hne hlast
    · exact hnone q hq hdeeper

theorem Insertion.decided (h : Insertion t p now u) (ht : t.WellFormed) :
    t.Decided p now u := by
  cases h with
  | self hself =>
    refine ⟨t.home p.id, t.getElem?_findBucket p.id, ?_⟩
    rw [if_pos hself]
    exact ⟨rfl, rfl⟩
  | present hself hpresent =>
    refine ⟨t.home p.id, t.getElem?_findBucket p.id, ?_⟩
    rw [if_neg hself, if_pos hpresent]
    exact ⟨rfl, rfl⟩
  | added habsent hroom hchange =>
    refine ⟨t.home p.id, t.getElem?_findBucket p.id, ?_⟩
    rw [if_neg habsent.foreign, if_neg habsent.not_present, if_pos hroom]
    exact ⟨rfl, hchange.bucketCount_eq⟩
  | @replaced _ old _ habsent hfull hmem hstatus hchange =>
    refine ⟨t.home p.id, t.getElem?_findBucket p.id, ?_⟩
    rw [if_neg habsent.foreign, if_neg habsent.not_present, if_neg (by omega),
      if_pos ⟨old, hmem, hstatus⟩]
    exact ⟨⟨old, hmem, rfl⟩, hchange.bucketCount_eq⟩
  | refused habsent hblocked hno => exact decided_of_refused ht habsent hblocked hno
  | addedAfterSplit habsent hblocked hyes hsplit hroom hchange =>
    apply decided_of_split habsent hblocked hyes hsplit
    · apply hchange.appended hsplit
      have hlast := (canSplit_iff.mp hyes).1
      rw [findBucket] at hlast
      rw [hsplit.findBucket_eq]
      omega
    · intro hfull
      omega
    · intro _
      rfl
  | refusedAfterSplit habsent hblocked hyes hsplit hfull =>
    apply decided_of_split habsent hblocked hyes hsplit
    · exact ⟨_, _, hsplit.buckets_eq⟩
    · intro _
      exact ⟨rfl, rfl⟩
    · intro hne
      exact absurd hfull hne

/-- **The decision table of insertion.**  In every table that can come about the
    insertion of a peer ends as the conditions say. -/
theorem insert_decided (h : t.Reachable) (p : Peer) (now : Time) :
    t.Decided p now (t.insert p now) :=
  (insert_cases h.wellFormed p now).decided h.wellFormed

/-- A tenth neighbour finds the last bucket full again, and the second split leaves
    one of its occupants behind. -/
theorem insert_decided_neighbourhood :
    neighbourhood.Reachable ∧
      neighbourhood.Decided (neighbour 9) 0 (neighbourhood.insert (neighbour 9) 0) ∧
      (neighbourhood.insert (neighbour 9) 0).answer = .added 2 ∧
      (neighbourhood.insert (neighbour 9) 0).table.bucketCount = 3 :=
  ⟨reachable_neighbourhood, insert_decided reachable_neighbourhood (neighbour 9) 0,
    by decide, by decide⟩

end Kademlia.Table
