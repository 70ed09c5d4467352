/-
  Kademlia/Proofs/Undated.lean
  ============================
  **What the clock is used for.**

  An insertion reads the clock for two purposes: to judge the peers of the bucket
  responsible for the candidate, and to note that a bucket has changed.  The notes are
  never read again.  So tables that differ in nothing else (`Table.undated`) cannot be told
  apart by inserting into them, at whatever two times, as long as every peer of that bucket
  has the same status at both (`insert_congr`).

  The statuses are looked at by searches of a row, and these answer alike for tests that
  agree on its occupants.  Everything else goes along with the row and the counter.
-/
import Kademlia.Proofs.Invariant

namespace Kademlia

variable {now now' : Time}

/-! ### Searches of a row -/

namespace Slots

theorem first?_congr {test test' : Peer → Bool} {row : Slots}
    (h : ∀ p ∈ occupants row, test p = test' p) : first? test row = first? test' row := by
  induction row with
  | nil => rfl
  | cons slot rest ih =>
    cases slot with
    | none => rw [first?, first?, ih h]
    | some p =>
      obtain ⟨hp, hrest⟩ := List.forall_mem_cons.mp h
      rw [first?, first?, hp, ih hrest]

theorem leastActive?_congr {test test' : Peer → Bool} {row : Slots}
    (h : ∀ p ∈ occupants row, test p = test' p) :
    leastActive? test row = leastActive? test' row := by
  induction row with
  | nil => rfl
  | cons slot rest ih =>
    cases slot with
    | none => rw [leastActive?, leastActive?, ih h]
    | some p =>
      obtain ⟨hp, hrest⟩ := List.forall_mem_cons.mp h
      rw [leastActive?, leastActive?, hp, ih hrest]

end Slots

/-! ### Buckets -/

namespace Bucket

variable {b b' : Bucket} {p : Peer}

/-- A bucket without the time of its last change. -/
def undated (b : Bucket) : Bucket :=
  { b with lastChanged := none }

@[simp] theorem peers_undated (b : Bucket) : b.undated.peers = b.peers := rfl

theorem eq_of_undated_eq (h : b.undated = b'.undated) :
    b' = { b with lastChanged := b'.lastChanged } := by
  obtain ⟨hindex, hsize, hslots⟩ : b.index = b'.index ∧ b.size = b'.size ∧ b.slots = b'.slots := by
    simpa [undated] using h
  ext1
  · exact hindex.symm
  · exact hsize.symm
  · rfl
  · exact hslots.symm

theorem index_congr (h : b.undated = b'.undated) : b.index = b'.index := by
  rw [eq_of_undated_eq h]

theorem peers_congr (h : b.undated = b'.undated) : b.peers = b'.peers := by
  rw [← peers_undated, h, peers_undated]

theorem isFull_congr (h : b.undated = b'.undated) : b.isFull = b'.isFull := by
  rw [eq_of_undated_eq h]
  rfl

theorem contains_congr (h : b.undated = b'.undated) (id : NodeId) :
    b.contains id = b'.contains id := by
  rw [contains, contains, peers_congr h]

theorem add_congr (h : b.undated = b'.undated) (p : Peer) (now now' : Time) :
    (∃ e, b.add p now = .error e ∧ b'.add p now' = .error e) ∨
      ∃ c c', b.add p now = .ok c ∧ b'.add p now' = .ok c' ∧ c.undated = c'.undated := by
  rw [eq_of_undated_eq h]
  simp only [add]
  cases Slots.firstFree? b.slots with
  | none => exact Or.inl ⟨_, rfl, rfl⟩
  | some i => exact Or.inr ⟨_, _, rfl, rfl, rfl⟩

theorem replaceBad_congr (h : b.undated = b'.undated)
    (hsame : ∀ q ∈ b.peers, q.status now = q.status now') (p : Peer) :
    (b.replaceBad p now = .error p ∧ b'.replaceBad p now' = .error p) ∨
      ∃ old c c', b.replaceBad p now = .ok (old, c) ∧ b'.replaceBad p now' = .ok (old, c') ∧
        c.undated = c'.undated := by
  have hsearch : Slots.first? (fun q => q.status now = .bad) b.slots =
      Slots.first? (fun q => q.status now' = .bad) b.slots :=
    Slots.first?_congr fun q hq => by rw [hsame q hq]
  rw [eq_of_undated_eq h]
  simp only [replaceBad, hsearch]
  cases Slots.first? (fun q => q.status now' = .bad) b.slots with
  | none => exact Or.inl ⟨rfl, rfl⟩
  | some found => exact Or.inr ⟨_, _, _, rfl, rfl, rfl⟩

theorem replaceQuestionable_congr (h : b.undated = b'.undated)
    (hsame : ∀ q ∈ b.peers, q.status now = q.status now') (p : Peer) :
    (b.replaceQuestionable p now = .error p ∧ b'.replaceQuestionable p now' = .error p) ∨
      ∃ old c c', b.replaceQuestionable p now = .ok (old, c) ∧
        b'.replaceQuestionable p now' = .ok (old, c') ∧ c.undated = c'.undated := by
  have hsearch : Slots.leastActive? (fun q => q.status now = .questionable) b.slots =
      Slots.leastActive? (fun q => q.status now' = .questionable) b.slots :=
    Slots.leastActive?_congr fun q hq => by rw [hsame q hq]
  rw [eq_of_undated_eq h]
  simp only [replaceQuestionable, hsearch]
  cases Slots.leastActive? (fun q => q.status now' = .questionable) b.slots with
  | none => exact Or.inl ⟨rfl, rfl⟩
  | some found => exact Or.inr ⟨_, _, _, rfl, rfl, rfl⟩

/-! ### Migrations -/

theorem drain_congr {dest dest' : Bucket} (h : dest.undated = dest'.undated)
    (leaves : Peer → Bool) (now now' : Time) (row : Slots) :
    (drain leaves now row dest).row = (drain leaves now' row dest').row ∧
      (drain leaves now row dest).dest.undated = (drain leaves now' row dest').dest.undated ∧
      (drain leaves now row dest).moved = (drain leaves now' row dest').moved := by
  induction row generalizing dest dest' with
  | nil => exact ⟨rfl, h, rfl⟩
  | cons slot rest ih =>
    cases slot with
    | none =>
      obtain ⟨hrow, hdest, hmoved⟩ := ih h
      exact ⟨congrArg (List.cons none) hrow, hdest, hmoved⟩
    | some p =>
      simp only [drain, isFull_congr h]
      split
      · exact ⟨rfl, h, rfl⟩
      split
      · rcases add_congr h p now now' with ⟨e, he, he'⟩ | ⟨d, d', hd, hd', hsame⟩
        · simp only [he, he', h, and_self]
        · obtain ⟨hrow, hdest, hmoved⟩ := ih hsame
          simp only [hd, hd']
          exact ⟨congrArg (List.cons none) hrow, hdest, congrArg Nat.succ hmoved⟩
      · obtain ⟨hrow, hdest, hmoved⟩ := ih h
        exact ⟨congrArg (List.cons (some p)) hrow, hdest, hmoved⟩

theorem migrate_congr {source source' dest dest' : Bucket}
    (hsource : source.undated = source'.undated) (hdest : dest.undated = dest'.undated)
    (leaves : Peer → Bool) (now now' : Time) :
    (source.migrate dest leaves now).source.undated =
        (source'.migrate dest' leaves now').source.undated ∧
      (source.migrate dest leaves now).dest.undated =
        (source'.migrate dest' leaves now').dest.undated ∧
      (source.migrate dest leaves now).moved = (source'.migrate dest' leaves now').moved := by
  rw [eq_of_undated_eq hsource]
  obtain ⟨hrow, hdest, hmoved⟩ := drain_congr hdest leaves now now' source.slots
  refine ⟨?_, hdest, hmoved⟩
  simp only [migrate, undated, hrow, hmoved]

end Bucket

/-! ### Tables -/

namespace Table

variable {t t' : Table} {p : Peer}

/-- A table without the times at which its buckets changed. -/
def undated (t : Table) : Table :=
  { t with
    buckets := t.buckets.map Bucket.undated
    buckets_ne_nil := by simp [t.buckets_ne_nil] }

/-- The answer and the events of an operation, and the table without times. -/
def Update.undated {α : Type} (u : Update α) : Update α :=
  { u with table := u.table.undated }

theorem Update.undated_eq_iff {α : Type} {u u' : Update α} :
    u.undated = u'.undated ↔
      u.answer = u'.answer ∧ u.table.undated = u'.table.undated ∧ u.events = u'.events := by
  simp [undated]

@[simp] theorem bucketCount_undated (t : Table) : t.undated.bucketCount = t.bucketCount := by
  simp [bucketCount, undated]

@[simp] theorem peers_undated (t : Table) : t.undated.peers = t.peers := by
  simp [peers, undated, List.flatMap_map]

@[simp] theorem findBucket_undated (t : Table) (id : NodeId) :
    t.undated.findBucket id = t.findBucket id := by
  simp [findBucket, undated, bucketCount]

@[simp] theorem home_undated (t : Table) (id : NodeId) :
    t.undated.home id = (t.home id).undated := by
  apply Option.some.inj
  rw [← getElem?_findBucket, findBucket_undated]
  simp [undated, getElem?_findBucket]

@[simp] theorem last_undated (t : Table) : t.undated.last = t.last.undated := by
  simp [last, undated]

theorem undated_setBucket (t : Table) (i : Nat) (b : Bucket) :
    (t.setBucket i b).undated = t.undated.setBucket i b.undated := by
  simp [setBucket, undated, List.map_set]

/-! ### Insertions -/

theorem localId_congr (h : t.undated = t'.undated) : t.localId = t'.localId :=
  (congrArg localId h : t.undated.localId = t'.undated.localId)

theorem bucketCount_congr (h : t.undated = t'.undated) : t.bucketCount = t'.bucketCount := by
  rw [← bucketCount_undated, h, bucketCount_undated]

theorem peers_congr (h : t.undated = t'.undated) : t.peers = t'.peers := by
  rw [← peers_undated, h, peers_undated]

theorem findBucket_congr (h : t.undated = t'.undated) (id : NodeId) :
    t.findBucket id = t'.findBucket id := by
  rw [← findBucket_undated, h, findBucket_undated]

theorem home_congr (h : t.undated = t'.undated) (id : NodeId) :
    (t.home id).undated = (t'.home id).undated := by
  rw [← home_undated, h, home_undated]

theorem last_congr (h : t.undated = t'.undated) : t.last.undated = t'.last.undated := by
  rw [← last_undated, h, last_undated]

theorem setBucket_congr (h : t.undated = t'.undated) {b b' : Bucket}
    (hb : b.undated = b'.undated) (i : Nat) :
    (t.setBucket i b).undated = (t'.setBucket i b').undated := by
  rw [undated_setBucket, undated_setBucket, h, hb]

theorem canSplit_congr (h : t.undated = t'.undated) (i : Nat) (id : NodeId) :
    t.canSplit i id = t'.canSplit i id := by
  simp only [canSplit, bucketCount_congr h, localId_congr h, Bucket.peers_congr (last_congr h)]

theorem splitLast_congr (h : t.undated = t'.undated) (now now' : Time) :
    (t.splitLast now).undated = (t'.splitLast now').undated := by
  have hlocal := localId_congr h
  have hcount := bucketCount_congr h
  have hinit : t.buckets.dropLast.map Bucket.undated = t'.buckets.dropLast.map Bucket.undated := by
    have hbuckets : t.buckets.map Bucket.undated = t'.buckets.map Bucket.undated :=
      (congrArg buckets h : t.undated.buckets = t'.undated.buckets)
    rw [List.map_dropLast, hbuckets, List.map_dropLast]
  obtain ⟨hsource, hdest, hmoved⟩ := Bucket.migrate_congr (last_congr h)
    (rfl : (Bucket.empty (t'.bucketCount - 1 + 1)).undated = _)
    (fun p => t'.bucketCount - 1 < t'.localId.sharedBits p.id) now now'
  refine Update.undated_eq_iff.mpr ⟨?_, ?_, ?_⟩
  · simpa only [splitLast, hcount, hlocal] using hmoved
  · simp only [splitLast, undated, hcount, hlocal, List.map_append, hinit, List.map_cons, hsource,
      hdest]
  · simp only [splitLast, hcount, hlocal, hmoved]

theorem addAfterSplit_congr (h : t.undated = t'.undated) (p : Peer) (now now' : Time) :
    (t.addAfterSplit p now).undated = (t'.addAfterSplit p now').undated := by
  obtain ⟨-, htable, hevents⟩ := Update.undated_eq_iff.mp (splitLast_congr h now now')
  have hindex := findBucket_congr htable p.id
  rcases Bucket.add_congr (home_congr htable p.id) p now now' with
    ⟨e, he, he'⟩ | ⟨b, b', hb, hb', hsame⟩
  · simp only [addAfterSplit, hindex, hevents, he, he']
    exact Update.undated_eq_iff.mpr ⟨rfl, htable, rfl⟩
  · simp only [addAfterSplit, hindex, hevents, hb, hb']
    exact Update.undated_eq_iff.mpr ⟨rfl, setBucket_congr htable hsame _, rfl⟩

theorem insertIntoFull_congr (h : t.undated = t'.undated) (i : Nat) {b b' : Bucket}
    (hb : b.undated = b'.undated) (hsame : ∀ q ∈ b.peers, q.status now = q.status now') :
    (t.insertIntoFull i b p now).undated = (t'.insertIntoFull i b' p now').undated := by
  have hindex := Bucket.index_congr hb
  rcases Bucket.replaceBad_congr hb hsame p with ⟨hbad, hbad'⟩ | ⟨old, c, c', hbad, hbad', hc⟩
  · rcases Bucket.replaceQuestionable_congr hb hsame p with
      ⟨hquest, hquest'⟩ | ⟨old, c, c', hquest, hquest', hc⟩
    · simp only [insertIntoFull, hbad, hbad', hquest, hquest', canSplit_congr h i p.id]
      split
      · exact addAfterSplit_congr h p now now'
      · exact Update.undated_eq_iff.mpr ⟨rfl, h, rfl⟩
    · simp only [insertIntoFull, hbad, hbad', hquest, hquest', hindex]
      exact Update.undated_eq_iff.mpr ⟨rfl, setBucket_congr h hc i, rfl⟩
  · simp only [insertIntoFull, hbad, hbad', hindex]
    exact Update.undated_eq_iff.mpr ⟨rfl, setBucket_congr h hc i, rfl⟩

/-- Two tables that differ in nothing but the times of changes cannot be told apart by
    inserting a peer, if the occupants of its bucket are judged alike at the two times. -/
theorem insert_congr (h : t.undated = t'.undated)
    (hsame : ∀ q ∈ (t.home p.id).peers, q.status now = q.status now') :
    (t.insert p now).undated = (t'.insert p now').undated := by
  have hhome := home_congr h p.id
  simp only [insert, localId_congr h, findBucket_congr h p.id, Bucket.contains_congr hhome p.id,
    Bucket.isFull_congr hhome]
  split
  · exact Update.undated_eq_iff.mpr ⟨rfl, h, rfl⟩
  split
  · exact Update.undated_eq_iff.mpr ⟨rfl, h, rfl⟩
  split
  · exact insertIntoFull_congr h _ hhome hsame
  · rcases Bucket.add_congr hhome p now now' with ⟨e, he, he'⟩ | ⟨b, b', hb, hb', hadded⟩
    · simp only [he, he']
      exact Update.undated_eq_iff.mpr ⟨rfl, h, rfl⟩
    · simp only [hb, hb']
      exact Update.undated_eq_iff.mpr ⟨rfl, setBucket_congr h hadded _, rfl⟩

end Table

end Kademlia
