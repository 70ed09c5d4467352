/-
  Kademlia/Proofs/ChangeTimes.lean
  ================================
  **When a bucket was last changed.**

  A bucket notes the time when a peer arrives in it, takes the slot of another one, or moves
  on to a new bucket.  The note is made in several places, but says one thing: an insertion
  dates a bucket if and only if it changes who is in it (`Dated`).  Of the two halves of a
  split bucket the old one is dated if somebody has left it, and the new one is never empty;
  this holds also of a split that moves nobody, where only the candidate goes to the new
  bucket, and of one after which the candidate is refused.

  Nothing else makes a note.  A removal changes who is in a bucket and does not date it.
-/
import Kademlia.Proofs.Eviction
import Kademlia.Proofs.Lookup
import Kademlia.Proofs.Partition

namespace Kademlia

/-! ### Buckets -/

namespace Bucket

variable {b b' : Bucket} {p q : Peer} {now : Time}

/-- The same peers are in two buckets, whatever their slots. -/
def SameOccupants (b b' : Bucket) : Prop :=
  ∀ q, q ∈ b'.peers ↔ q ∈ b.peers

/-- What has become of a bucket bears the time `now` if its occupants are others, and its
    former time if they are the same. -/
structure Dated (b : Bucket) (now : Time) (b' : Bucket) : Prop where
  changed : ¬ b.SameOccupants b' → b'.lastChanged = some now
  unchanged : b.SameOccupants b' → b'.lastChanged = b.lastChanged

theorem dated_refl (b : Bucket) (now : Time) : b.Dated now b where
  changed := fun h => absurd (fun _ => Iff.rfl) h
  unchanged := fun _ => rfl

theorem dated_of_same (hsame : b.SameOccupants b') (htime : b'.lastChanged = b.lastChanged) :
    b.Dated now b' where
  changed := fun h => absurd hsame h
  unchanged := fun _ => htime

theorem dated_of_different (hne : ¬ b.SameOccupants b') (htime : b'.lastChanged = some now) :
    b.Dated now b' where
  changed := fun _ => htime
  unchanged := fun h => absurd h hne

/-- A peer is in the bucket, and the bucket was changed at `now`. -/
structure Received (p : Peer) (now : Time) (b : Bucket) : Prop where
  mem : p ∈ b.peers
  time : b.lastChanged = some now

theorem Received.dated (h : Received p now b') (hnew : p ∉ b.peers) : b.Dated now b' :=
  dated_of_different (fun hsame => hnew ((hsame p).mp h.mem)) h.time

theorem received_of_add (h : b.add p now = .ok b') : Received p now b' where
  mem := by
    obtain ⟨before, after, -, hpeers⟩ := (add_ok h).peers_split
    simp [hpeers]
  time := by
    rcases hfree : Slots.firstFree? b.slots with _ | i
    · simp [add, hfree] at h
    · simp only [add, hfree, Except.ok.injEq] at h
      rw [← h]

theorem received_exchange {j : Nat} (hj : j < 8) : Received p now (b.exchange j p now) where
  mem := Slots.mem_occupants.mpr (List.mem_set (by rwa [b.length_slots]) _)
  time := rfl

/-! ### Migrations -/

/-- A bucket that takes peers in is dated by the last of them. -/
theorem lastChanged_drain (leaves : Peer → Bool) (now : Time) (row : Slots) (dest : Bucket) :
    (drain leaves now row dest).dest.lastChanged =
      if 0 < (drain leaves now row dest).moved then some now else dest.lastChanged := by
  fun_induction drain leaves now row dest with
  | case1 => rfl
  | case2 rest dest ih => exact ih
  | case3 => rfl
  | case4 p rest dest hroom hleaves dest' hadd ih =>
    simp only [Drained.leave, Nat.succ_pos, if_true]
    rw [ih, (received_of_add hadd).time, ite_self]
  | case5 => rfl
  | case6 p rest dest hroom hstays ih => exact ih

theorem lastChanged_migrate_empty (source : Bucket) (i : Nat) (leaves : Peer → Bool) (now : Time) :
    let m := source.migrate (empty i) leaves now
    m.source.lastChanged =
        (if source.peers.filter leaves = [] then source.lastChanged else some now) ∧
      m.dest.lastChanged = if source.peers.filter leaves = [] then none else some now := by
  obtain ⟨-, -, -, -, -, hmoved⟩ := migrate_empty source i leaves now
  have hnobody : 0 < (drain leaves now source.slots (empty i)).moved ↔
      ¬ source.peers.filter leaves = [] :=
    (iff_of_eq (congrArg (0 < ·) hmoved)).trans List.length_pos_iff
  have hdest := lastChanged_drain leaves now source.slots (empty i)
  simp only [hnobody, ite_not] at hdest
  refine ⟨?_, hdest⟩
  simp only [migrate, hnobody, ite_not]

end Bucket

/-! ### Tables -/

namespace Table

variable {t t' : Table} {p : Peer} {now : Time}

/-- The bucket at an index; one that does not exist yet counts as empty. -/
def bucketOrEmpty (t : Table) (k : Nat) : Bucket :=
  (t.bucket? k).getD (.empty k)

/-- What has become of a table at `now` has exactly those buckets dated whose occupants are
    others, and its new buckets are not empty. -/
structure Dated (t : Table) (now : Time) (t' : Table) : Prop where
  buckets : ∀ k b, t'.bucket? k = some b → (t.bucketOrEmpty k).Dated now b
  created : ∀ k b, t'.bucket? k = some b → t.bucketCount ≤ k → b.peers ≠ []

theorem bucketOrEmpty_of_bucket? {k : Nat} {b : Bucket} (h : t.bucket? k = some b) :
    t.bucketOrEmpty k = b := by
  rw [bucketOrEmpty, h, Option.getD_some]

theorem bucketOrEmpty_bucketCount (t : Table) :
    t.bucketOrEmpty t.bucketCount = .empty t.bucketCount := by
  simp [bucketOrEmpty, bucket?, bucketCount]

theorem lt_of_bucket? {k : Nat} {b : Bucket} (h : t.bucket? k = some b) : k < t.bucketCount :=
  (List.getElem?_eq_some_iff.mp h).1

theorem dated_refl (t : Table) (now : Time) : t.Dated now t where
  buckets := by
    intro k b hb
    rw [bucketOrEmpty_of_bucket? hb]
    exact b.dated_refl now
  created := fun k b hb hk => absurd (lt_of_bucket? hb) (Nat.not_lt_of_le hk)

theorem dated_setBucket {id : NodeId} {b : Bucket} (h : (t.home id).Dated now b) :
    t.Dated now (t.setBucket (t.findBucket id) b) where
  buckets := by
    intro k c hc
    by_cases hk : k = t.findBucket id
    · subst hk
      rw [t.bucket?_setBucket_here] at hc
      obtain rfl : b = c := Option.some.inj hc
      rwa [bucketOrEmpty_of_bucket? (t.bucket?_findBucket id)]
    · rw [t.bucket?_setBucket_elsewhere hk] at hc
      rw [bucketOrEmpty_of_bucket? hc]
      exact c.dated_refl now
  created := by
    intro k c hc hk
    have hlt : k < t.bucketCount := by simpa [bucketCount, setBucket] using lt_of_bucket? hc
    exact absurd hlt (Nat.not_lt_of_le hk)

/-- If the last bucket has become two, nothing has to be said of the others. -/
theorem dated_of_buckets {source dest : Bucket}
    (hbuckets : t'.buckets = t.buckets.dropLast ++ [source, dest])
    (hsource : t.last.Dated now source) (hdest : (Bucket.empty t.bucketCount).Dated now dest)
    (hpeopled : dest.peers ≠ []) : t.Dated now t' where
  buckets := by
    intro k c hc
    rcases getElem?_of_parted hbuckets hc with ⟨-, hsame⟩ | ⟨hk, rfl⟩ | ⟨rfl, rfl⟩
    · rw [bucketOrEmpty_of_bucket? hsame]
      exact c.dated_refl now
    · have hlast : t.bucket? k = some t.last := by
        rw [Nat.eq_sub_of_add_eq hk]
        exact t.getElem?_last
      rwa [bucketOrEmpty_of_bucket? hlast]
    · rwa [bucketOrEmpty_bucketCount]
  created := by
    intro k c hc hk
    rcases getElem?_of_parted hbuckets hc with ⟨hlt, -⟩ | ⟨hlast, -⟩ | ⟨-, rfl⟩
    · exact absurd (Nat.lt_of_succ_lt hlt) (Nat.not_lt_of_le hk)
    · exact absurd (Nat.lt_of_succ_le hlast.le) (Nat.not_lt_of_le hk)
    · exact hpeopled

/-! ### Splits -/

/-- The old half is dated if somebody has left it, and the new half if somebody has come. -/
theorem exists_dated_split (t : Table) (now : Time) :
    ∃ source dest, t.Split source dest (t.splitLast now).table ∧ t.last.Dated now source ∧
      (Bucket.empty t.bucketCount).Dated now dest := by
  obtain ⟨source, dest, hsplit⟩ := t.split_splitLast now
  let m := t.last.migrate (.empty (t.bucketCount - 1 + 1)) t.deeper now
  have hhalves : [m.source, m.dest] = [source, dest] := List.append_cancel_left hsplit.buckets_eq
  obtain ⟨rfl, rfl⟩ : m.source = source ∧ m.dest = dest := by simpa using hhalves
  obtain ⟨hsource, hdest⟩ :=
    Bucket.lastChanged_migrate_empty t.last (t.bucketCount - 1 + 1) t.deeper now
  refine ⟨_, _, hsplit, ?_⟩
  by_cases hnobody : t.last.peers.filter t.deeper = []
  · rw [if_pos hnobody] at hsource hdest
    refine ⟨Bucket.dated_of_same ?_ hsource, Bucket.dated_of_same ?_ hdest⟩
    · intro q
      rw [hsplit.peers_source, List.mem_filter, Bool.not_eq_true']
      exact and_iff_left_of_imp fun hq => by simpa using List.filter_eq_nil_iff.mp hnobody q hq
    · intro q
      rw [hsplit.packed_dest.peers_eq, hnobody, Bucket.peers_empty]
  · rw [if_neg hnobody] at hsource hdest
    obtain ⟨q, hq⟩ := List.exists_mem_of_ne_nil _ hnobody
    refine ⟨Bucket.dated_of_different ?_ hsource, Bucket.dated_of_different ?_ hdest⟩
    · intro hsame
      have hstays := (hsame q).mpr (List.mem_of_mem_filter hq)
      rw [hsplit.peers_source, List.mem_filter, (List.mem_filter.mp hq).2] at hstays
      cases hstays.2
    · intro hsame
      have hempty := (hsame q).mp (hsplit.packed_dest.peers_eq ▸ hq)
      simp at hempty

/-! ### Insertions -/

theorem Absent.not_mem_home (h : t.Absent p) : p ∉ (t.home p.id).peers :=
  fun hp => h.fresh p (mem_peers.mpr ⟨_, t.home_mem p.id, hp⟩) rfl

theorem Absent.not_mem_last (h : t.Absent p) : p ∉ t.last.peers := by
  intro hp
  apply h.fresh p _ rfl
  rw [t.peers_eq_last]
  exact List.mem_append_right _ hp

/-- An absent peer that its bucket receives has that bucket dated. -/
theorem Absent.dated_setBucket {b : Bucket} (h : t.Absent p) (hb : b.Received p now) :
    t.Dated now (t.setBucket (t.findBucket p.id) b) :=
  Table.dated_setBucket (hb.dated h.not_mem_home)

/-- The candidate goes to one of the two halves. -/
theorem Split.dated_of_added {source dest b : Bucket} {t₁ : Table} (h : t.Split source dest t₁)
    (hsource : t.last.Dated now source) (hdest : (Bucket.empty t.bucketCount).Dated now dest)
    (habsent : t.Absent p) (hlast : t.findBucket p.id + 1 = t.bucketCount)
    (hhelps : ∃ q ∈ p :: t.last.peers, t.deeper q = true)
    (hadd : (t₁.home p.id).add p now = .ok b) :
    t.Dated now (t₁.setBucket (t₁.findBucket p.id) b) := by
  have hb : b.Received p now := Bucket.received_of_add hadd
  rcases hp : t.deeper p with _ | _
  · -- somebody else has gone to the new bucket
    obtain ⟨q, hq, hdeep⟩ := hhelps
    have hmover : q ∈ dest.peers := by
      rw [h.packed_dest.peers_eq, List.mem_filter]
      refine ⟨(List.mem_cons.mp hq).resolve_left ?_, hdeep⟩
      rintro rfl
      rw [hp] at hdeep
      cases hdeep
    rw [h.findBucket_of_stays hp]
    exact dated_of_buckets (h.setBucket_source hlast b) (hb.dated habsent.not_mem_last) hdest
      (List.ne_nil_of_mem hmover)
  · rw [(h.findBucket_of_deeper hp).trans hlast.symm]
    exact dated_of_buckets (h.setBucket_dest hlast b) hsource (hb.dated List.not_mem_nil)
      (List.ne_nil_of_mem hb.mem)

theorem dated_addAfterSplit (habsent : t.Absent p) (hblocked : t.Blocked p now)
    (hcan : t.canSplit (t.findBucket p.id) p.id = true) :
    t.Dated now (t.addAfterSplit p now).table := by
  obtain ⟨source, dest, hsplit, hsource, hdest⟩ := t.exists_dated_split now
  rw [addAfterSplit]
  rcases hadd : ((t.splitLast now).table.home p.id).add p now with e | b
  · -- the candidate is refused, and all eight others have moved
    have hfull := Bucket.add_error hadd
    have hall := (hsplit.length_home_of_canSplit hblocked hcan).mp hfull
    rw [hsplit.home_of_deeper (hall p List.mem_cons_self)] at hfull
    have hpeopled : dest.peers ≠ [] := List.ne_nil_of_length_eq_add_one hfull
    exact dated_of_buckets hsplit.buckets_eq hsource hdest hpeopled
  · obtain ⟨hlast, -, q, hq, hdeep⟩ := canSplit_iff.mp hcan
    have hhelps : ∃ q ∈ p :: t.last.peers, t.deeper q = true :=
      ⟨q, hq, (deeper_iff hlast).mpr hdeep⟩
    exact hsplit.dated_of_added hsource hdest habsent hlast hhelps hadd

/-- An insertion dates the buckets whose occupants it changes. -/
theorem dated_insert (ht : t.WellFormed) (p : Peer) (now : Time) :
    t.Dated now (t.insert p now).table := by
  have hcases := insert_cases ht p now
  generalize hu : t.insert p now = u at hcases
  cases hcases with
  | self => exact t.dated_refl now
  | present => exact t.dated_refl now
  | added habsent hroom =>
    obtain ⟨b, hadd, hinsert⟩ := insert_of_room ht habsent hroom now
    rw [← hu, hinsert]
    exact habsent.dated_setBucket (Bucket.received_of_add hadd)
  | replaced habsent hfull hmem hstatus =>
    obtain ⟨j, e, events, hvictim, hexchange⟩ :=
      insertIntoFull_of_displaceable (p := p) t (t.findBucket p.id) ⟨_, hmem, hstatus⟩
    rw [← hu, insert_of_full ht habsent hfull, hexchange]
    exact habsent.dated_setBucket (Bucket.received_exchange (Bucket.lt_of_victim hvictim))
  | refused => exact t.dated_refl now
  | addedAfterSplit habsent hblocked hcan =>
    rw [← hu, insert_of_canSplit ht habsent hblocked hcan]
    exact dated_addAfterSplit habsent hblocked hcan
  | refusedAfterSplit habsent hblocked hcan =>
    rw [← hu, insert_of_canSplit ht habsent hblocked hcan]
    exact dated_addAfterSplit habsent hblocked hcan

/-! ### Everything else -/

theorem sameTimes_refl (t : Table) : t.SameTimes t :=
  fun _ => rfl

theorem SameTimes.trans {t'' : Table} (h : t.SameTimes t') (h' : t'.SameTimes t'') :
    t.SameTimes t'' :=
  fun k => (h' k).trans (h k)

theorem sameTimes_editOrKeep (t : Table) (id : NodeId) (f : Peer → Peer) :
    t.SameTimes (t.editOrKeep id f) := by
  rcases hfind : t.find? id with _ | q
  · simpa only [editOrKeep, edit?_of_find?_eq_none hfind f] using t.sameTimes_refl
  · obtain ⟨j, hfirst⟩ := exists_first? hfind
    obtain ⟨t', hedit, -, htimes⟩ := edit?_place hfirst f
    simpa only [editOrKeep, hedit] using htimes

theorem sameTimes_perform_remove (t : Table) (id : NodeId) :
    t.SameTimes (t.perform (.remove id)).table := by
  rcases hfind : t.find? id with _ | q
  · simpa only [perform, remove?_of_find?_eq_none hfind] using t.sameTimes_refl
  · obtain ⟨j, hfirst⟩ := exists_first? hfind
    obtain ⟨t', hremove, -, htimes⟩ := remove?_place hfirst
    simpa only [perform, hremove] using htimes

theorem sameTimes_sweep {σ : Type} (t : Table) (visit : σ → Peer → σ × Peer) (state : σ) :
    t.SameTimes (t.sweep visit state).2 := by
  intro k
  obtain ⟨s, hs⟩ := t.bucket?_sweep visit state k
  rw [hs, Option.map_map]
  rfl

end Table

def Operation.Inserts : Operation → Prop
  | .insert _ _ => True
  | _ => False

namespace Table

variable {t : Table}

theorem sameTimes_perform {operation : Operation} (h : ¬ operation.Inserts) :
    t.SameTimes (t.perform operation).table := by
  cases operation with
  | insert p now => exact absurd trivial h
  | remove id => exact t.sameTimes_perform_remove id
  | markReply id now =>
    rw [table_perform_markReply]
    exact t.sameTimes_editOrKeep id _
  | markQuery id now =>
    rw [table_perform_markQuery]
    exact t.sameTimes_editOrKeep id _
  | edit id plan =>
    rw [table_perform_edit]
    exact t.sameTimes_editOrKeep id _

theorem sameTimes_run {operations : List Operation} (h : ∀ o ∈ operations, ¬ o.Inserts) :
    t.SameTimes (t.run operations).2 := by
  induction operations generalizing t with
  | nil => exact t.sameTimes_refl
  | cons operation rest ih =>
    obtain ⟨hfirst, hrest⟩ := List.forall_mem_cons.mp h
    exact (sameTimes_perform hfirst).trans (ih hrest)

/-- **Times of change.**  In every table that can come about an insertion dates those buckets
    whose occupants it changes, a new one among them, and leaves the times of all others.
    Nothing else that is done to a table or to its peers touches a time. -/
theorem change_times_exact (h : t.Reachable) :
    (∀ p now, t.Dated now (t.insert p now).table) ∧
      (∀ operations : List Operation, (∀ o ∈ operations, ¬ o.Inserts) →
        t.SameTimes (t.run operations).2) ∧
      (∀ id f, t.SameTimes (t.editOrKeep id f)) ∧
      ∀ (σ : Type) (visit : σ → Peer → σ × Peer) (state : σ),
        t.SameTimes (t.sweep visit state).2 :=
  ⟨dated_insert h.wellFormed, fun _ => sameTimes_run, t.sameTimes_editOrKeep,
    fun _ => t.sameTimes_sweep⟩

/-- Eight peers that share no bit with the local identifier. -/
def strangers : Table :=
  ((new .zero).run ((List.range 8).map fun m => .insert (cousin 0 (10 + m)) 0)).2

set_option maxRecDepth 4000 in
/-- A ninth peer that does share one splits their bucket, from which nobody moves, so that only
    the new bucket is dated.  The departure of one of them dates nothing. -/
theorem change_times_exact_strangers :
    strangers.Reachable ∧
      (strangers.Dated 5 (strangers.insert (neighbour 1) 5).table ∧
        (strangers.insert (neighbour 1) 5).table.buckets.map Bucket.lastChanged =
          [some 0, some 5]) ∧
      (∀ o ∈ [Operation.remove (cousin 0 10).id], ¬ o.Inserts) ∧
        strangers.SameTimes (strangers.run [.remove (cousin 0 10).id]).2 ∧
        (strangers.run [.remove (cousin 0 10).id]).2.size = 7 := by
  have hreachable : strangers.Reachable := (Reachable.new .zero).run _
  obtain ⟨hinsert, hrest, -⟩ := change_times_exact hreachable
  have hquiet : ∀ o ∈ [Operation.remove (cousin 0 10).id], ¬ o.Inserts := by
    simp [Operation.Inserts]
  exact ⟨hreachable, ⟨hinsert (neighbour 1) 5, by decide⟩, hquiet, hrest _ hquiet, by decide⟩

end Table

end Kademlia
