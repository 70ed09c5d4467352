/-
  Kademlia/Proofs/Visits.lean
  ===========================
  **A visit to all peers, and visits to one after the other.**

  A sweep goes through the slots of all buckets.  It meets the peers in the order in which the
  table lists them, each of them once, whatever the visitor does: a visitor may take down whom
  it meets (`recording`), and its list is the list of peers (`sweep_recording`).

  An edit goes another way, through the bucket that is responsible for an identifier and the
  first slot there that holds it.  In a table that is in order this is a map over all peers
  that changes who bears the identifier and nobody else (`editOrKeep_eq_mapPeers`).  Maps can
  be composed, so to mark distinct peers one by one is to map over all of them, in whatever
  order they come (`run_marks`).
-/
import Kademlia.Proofs.Lookup

namespace Kademlia

/-- A visitor that also takes down whom it meets. -/
def recording {σ : Type} (visit : σ → Peer → σ × Peer) (s : σ × List Peer) (p : Peer) :
    (σ × List Peer) × Peer :=
  (((visit s.1 p).1, s.2 ++ [p]), (visit s.1 p).2)

/-- The edit of the peer with a given identifier alone. -/
def onlyAt (id : NodeId) (f : Peer → Peer) (p : Peer) : Peer :=
  if p.id = id then f p else p

theorem onlyAt_of_ne {id : NodeId} {p : Peer} (h : p.id ≠ id) (f : Peer → Peer) :
    onlyAt id f p = p :=
  if_neg h

theorem onlyAt_of_eq {id : NodeId} {p : Peer} (h : p.id = id) (f : Peer → Peer) :
    onlyAt id f p = f p :=
  if_pos h

theorem id_onlyAt (id : NodeId) {f : Peer → Peer} (hf : ∀ p, (f p).id = p.id) (p : Peer) :
    (onlyAt id f p).id = p.id := by
  rw [onlyAt]
  split
  · exact hf p
  · rfl

/-! ### Rows -/

namespace Slots

variable {row : Slots} {f : Peer → Peer}

theorem sweep_stateless (f : Peer → Peer) (row : Slots) :
    (sweep (fun _ p => ((), f p)) () row).2 = row.map (Option.map f) := by
  induction row with
  | nil => rfl
  | cons slot rest ih => cases slot <;> simp [sweep, ih]

theorem sweep_recording {σ : Type} (visit : σ → Peer → σ × Peer) (state : σ) (seen : List Peer)
    (row : Slots) :
    sweep (recording visit) (state, seen) row =
      (((sweep visit state row).1, seen ++ occupants row), (sweep visit state row).2) := by
  induction row generalizing state seen with
  | nil => simp [sweep]
  | cons slot rest ih =>
    cases slot with
    | none => simp [sweep, ih]
    | some p => simp [sweep, recording, ih]

theorem occupants_map (f : Peer → Peer) (row : Slots) :
    occupants (row.map (Option.map f)) = (occupants row).map f := by
  induction row with
  | nil => rfl
  | cons slot rest ih => cases slot <;> simp [ih]

theorem map_congr {g : Peer → Peer} (h : ∀ p ∈ occupants row, f p = g p) :
    row.map (Option.map f) = row.map (Option.map g) := by
  apply List.map_congr_left
  rintro (_ | p) hp
  · rfl
  · exact congrArg some (h p (mem_occupants.mpr hp))

theorem map_eq_self (h : ∀ p ∈ occupants row, f p = p) : row.map (Option.map f) = row := by
  rw [map_congr (g := id) h, Option.map_id, List.map_id]

end Slots

/-! ### Buckets -/

namespace Bucket

variable {b : Bucket} {f g : Peer → Peer}

def mapPeers (b : Bucket) (f : Peer → Peer) : Bucket :=
  { b with
    slots := b.slots.map (Option.map f)
    length_slots := by simp [b.length_slots] }

theorem sweep_stateless (b : Bucket) (f : Peer → Peer) :
    (b.sweep (fun _ p => ((), f p)) ()).2 = b.mapPeers f := by
  ext1
  · rfl
  · rfl
  · rfl
  · exact Slots.sweep_stateless f b.slots

theorem sweep_recording {σ : Type} (visit : σ → Peer → σ × Peer) (state : σ) (seen : List Peer)
    (b : Bucket) :
    b.sweep (recording visit) (state, seen) =
      (((b.sweep visit state).1, seen ++ b.peers), (b.sweep visit state).2) := by
  simp only [sweep, Slots.sweep_recording, peers]

theorem peers_mapPeers (b : Bucket) (f : Peer → Peer) : (b.mapPeers f).peers = b.peers.map f :=
  Slots.occupants_map f b.slots

theorem mapPeers_congr (h : ∀ p ∈ b.peers, f p = g p) : b.mapPeers f = b.mapPeers g := by
  simp only [mapPeers, Slots.map_congr h]

theorem mapPeers_eq_self (h : ∀ p ∈ b.peers, f p = p) : b.mapPeers f = b := by
  simp only [mapPeers, Slots.map_eq_self h]

theorem mapPeers_mapPeers (b : Bucket) (f g : Peer → Peer) :
    (b.mapPeers f).mapPeers g = b.mapPeers (g ∘ f) := by
  simp only [mapPeers, List.map_map, Option.map_comp_map]

/-- The slot in which a search finds an identifier is the only one that a map over those who
    bear it changes. -/
theorem setSlot_eq_mapPeers {id : NodeId} {q : Peer} {j : Nat}
    (hdistinct : (b.peers.map Peer.id).Nodup)
    (h : Slots.first? (fun p => p.id = id) b.slots = some (j, q)) (f : Peer → Peer) :
    b.setSlot j (some (f q)) = b.mapPeers (onlyAt id f) := by
  obtain ⟨before, after, hrow, rfl, hid, hbefore⟩ := Slots.first?_eq_some h
  obtain rfl : q.id = id := by simpa using hid
  have hbefore : before.map (Option.map (onlyAt q.id f)) = before :=
    Slots.map_eq_self fun p hp => onlyAt_of_ne (by simpa using hbefore p hp) f
  have hafter : after.map (Option.map (onlyAt q.id f)) = after := by
    rw [peers, hrow, Slots.occupants_append, List.map_append, Slots.occupants_cons_some]
      at hdistinct
    have hfresh := (List.nodup_cons.mp hdistinct.of_append_right).1
    refine Slots.map_eq_self fun p hp => onlyAt_of_ne ?_ f
    exact fun hid => hfresh (hid ▸ List.mem_map_of_mem hp)
  ext1
  · rfl
  · rfl
  · rfl
  · calc b.slots.set before.length (some (f q))
        = before ++ some (f q) :: after := by rw [hrow, Slots.set_split]
      _ = b.slots.map (Option.map (onlyAt q.id f)) := by
          rw [hrow, List.map_append, List.map_cons, hbefore, hafter, Option.map_some,
            onlyAt_of_eq rfl]

end Bucket

/-! ### Tables -/

namespace Table

variable {t : Table} {f g : Peer → Peer}

theorem sweepBuckets_stateless (f : Peer → Peer) (buckets : List Bucket) :
    (sweepBuckets (fun _ p => ((), f p)) () buckets).2 = buckets.map fun b => b.mapPeers f := by
  induction buckets with
  | nil => rfl
  | cons b rest ih => simp [sweepBuckets, Bucket.sweep_stateless, ih]

theorem buckets_mapPeers (t : Table) (f : Peer → Peer) :
    (t.mapPeers f).buckets = t.buckets.map fun b => b.mapPeers f :=
  sweepBuckets_stateless f t.buckets

theorem bucket?_mapPeers (t : Table) (f : Peer → Peer) (k : Nat) :
    (t.mapPeers f).bucket? k = (t.bucket? k).map fun b => b.mapPeers f := by
  rw [bucket?, buckets_mapPeers, List.getElem?_map, bucket?]

theorem findBucket_mapPeers (t : Table) (f : Peer → Peer) (id : NodeId) :
    (t.mapPeers f).findBucket id = t.findBucket id :=
  t.findBucket_sweep _ () id

theorem home_mapPeers (t : Table) (f : Peer → Peer) (id : NodeId) :
    (t.mapPeers f).home id = (t.home id).mapPeers f := by
  have hhome := (t.mapPeers f).bucket?_findBucket id
  rw [bucket?_mapPeers, findBucket_mapPeers, bucket?_findBucket, Option.map_some] at hhome
  exact (Option.some.inj hhome).symm

theorem peers_mapPeers (t : Table) (f : Peer → Peer) : (t.mapPeers f).peers = t.peers.map f := by
  simp only [peers, buckets_mapPeers, List.flatMap_map, Bucket.peers_mapPeers, List.map_flatMap]

theorem ids_mapPeers (hf : ∀ p, (f p).id = p.id) (t : Table) :
    (t.mapPeers f).peers.map Peer.id = t.peers.map Peer.id := by
  rw [peers_mapPeers, List.map_map]
  exact List.map_congr_left fun p _ => hf p

theorem mapPeers_congr (h : ∀ p ∈ t.peers, f p = g p) : t.mapPeers f = t.mapPeers g := by
  ext1
  · rfl
  · rw [buckets_mapPeers, buckets_mapPeers]
    apply List.map_congr_left
    intro b hb
    exact Bucket.mapPeers_congr fun p hp => h p (mem_peers.mpr ⟨b, hb, hp⟩)

theorem mapPeers_eq_self (h : ∀ p ∈ t.peers, f p = p) : t.mapPeers f = t := by
  ext1
  · rfl
  · have hbuckets : ∀ b ∈ t.buckets, b.mapPeers f = id b := fun b hb =>
      Bucket.mapPeers_eq_self fun p hp => h p (mem_peers.mpr ⟨b, hb, hp⟩)
    rw [buckets_mapPeers, List.map_congr_left hbuckets, List.map_id]

theorem mapPeers_mapPeers (t : Table) (f g : Peer → Peer) :
    (t.mapPeers f).mapPeers g = t.mapPeers (g ∘ f) := by
  ext1
  · rfl
  · simp only [buckets_mapPeers, List.map_map, Function.comp_def, Bucket.mapPeers_mapPeers]

theorem sweepBuckets_recording {σ : Type} (visit : σ → Peer → σ × Peer) (state : σ)
    (seen : List Peer) (buckets : List Bucket) :
    sweepBuckets (recording visit) (state, seen) buckets =
      (((sweepBuckets visit state buckets).1, seen ++ buckets.flatMap Bucket.peers),
        (sweepBuckets visit state buckets).2) := by
  induction buckets generalizing state seen with
  | nil => simp [sweepBuckets]
  | cons b rest ih => simp [sweepBuckets, Bucket.sweep_recording, ih]

/-- A visitor's list of whom it has met is the list of peers, and to keep it changes nothing. -/
theorem sweep_recording {σ : Type} (t : Table) (visit : σ → Peer → σ × Peer) (state : σ) :
    t.sweep (recording visit) (state, []) =
      (((t.sweep visit state).1, t.peers), (t.sweep visit state).2) := by
  simp only [sweep, sweepBuckets_recording, List.nil_append, peers]

/-! ### Edits of one peer -/

/-- To edit the peer with an identifier is to map over those who bear it. -/
theorem editOrKeep_eq_mapPeers (ht : t.WellFormed) (id : NodeId) (f : Peer → Peer) :
    t.editOrKeep id f = t.mapPeers (onlyAt id f) := by
  rcases hfind : t.find? id with _ | q
  · have habsent : ∀ p ∈ t.peers, p.id ≠ id := by
      intro p hp hid
      rw [(find?_eq_some_iff ht).mpr ⟨hp, hid⟩] at hfind
      cases hfind
    rw [mapPeers_eq_self fun p hp => onlyAt_of_ne (habsent p hp) f]
    simp only [editOrKeep, edit?_of_find?_eq_none hfind]
  · obtain ⟨j, hfirst⟩ := exists_first? hfind
    have hhome := Bucket.setSlot_eq_mapPeers (ht.distinct_of_mem (t.home_mem id)) hfirst f
    have hedit : t.editOrKeep id f =
        t.setBucket (t.findBucket id) ((t.home id).mapPeers (onlyAt id f)) := by
      simp only [editOrKeep, edit?, Bucket.edit?, hfirst, Option.map_some, hhome]
    rw [hedit]
    ext1
    · rfl
    · apply List.ext_getElem?
      intro k
      refine Eq.trans ?_ (t.bucket?_mapPeers (onlyAt id f) k).symm
      by_cases hk : k = t.findBucket id
      · subst hk
        rw [t.bucket?_findBucket]
        exact t.bucket?_setBucket_here id _
      · -- whoever bears the identifier is in the other bucket
        refine (t.bucket?_setBucket_elsewhere hk _).trans ?_
        rcases hb : t.bucket? k with _ | b
        · rfl
        · have hother : ∀ p ∈ b.peers, p.id ≠ id := by
            rintro p hp rfl
            exact hk (ht.placed k b hb p hp).symm
          rw [Option.map_some, Bucket.mapPeers_eq_self fun p hp => onlyAt_of_ne (hother p hp) f]

end Table

/-! ### Marks -/

/-- The two things that are recorded of a peer. -/
inductive Mark where
  | reply
  | query
deriving DecidableEq, Repr

namespace Mark

def apply : Mark → Time → Peer → Peer
  | .reply, now, p => p.markReply now
  | .query, now, p => p.markQuery now

def operation : Mark → NodeId → Time → Operation
  | .reply, id, now => .markReply id now
  | .query, id, now => .markQuery id now

@[simp] theorem id_apply (mark : Mark) (now : Time) (p : Peer) : (mark.apply now p).id = p.id := by
  cases mark <;> rfl

end Mark

namespace Table

variable {t : Table} {now : Time}

theorem table_perform_mark (t : Table) (mark : Mark) (id : NodeId) (now : Time) :
    (t.perform (mark.operation id now)).table = t.editOrKeep id (mark.apply now) := by
  cases mark with
  | reply => exact t.table_perform_markReply id now
  | query => exact t.table_perform_markQuery id now

/-- A mark is answered by whether the peer is there. -/
theorem answer_perform_mark (t : Table) (mark : Mark) (id : NodeId) (now : Time) :
    (t.perform (mark.operation id now)).answer = .marked (t.contains id) := by
  rcases hfind : t.find? id with _ | q
  · have hnobody := undirected hfind
    cases mark with
    | reply => simp [Mark.operation, perform, (hnobody.marksReply now).1, contains, hfind]
    | query => simp [Mark.operation, perform, (hnobody.marksQuery now).1, contains, hfind]
  · obtain ⟨k, j, hdirected⟩ := exists_directed hfind
    cases mark with
    | reply => simp [Mark.operation, perform, (hdirected.marksReply now).answer_eq, contains, hfind]
    | query => simp [Mark.operation, perform, (hdirected.marksQuery now).answer_eq, contains, hfind]

/-- The mark of those peers whose identifiers are listed. -/
def markListed (mark : Mark) (now : Time) (ids : List NodeId) (p : Peer) : Peer :=
  if p.id ∈ ids then mark.apply now p else p

/-- Who has been marked alone does not come up again. -/
theorem markListed_cons {ids : List NodeId} {id : NodeId} (hnew : id ∉ ids) (mark : Mark)
    (now : Time) :
    markListed mark now ids ∘ onlyAt id (mark.apply now) = markListed mark now (id :: ids) := by
  funext p
  by_cases hid : p.id = id
  · have hfirst : (mark.apply now p).id ∉ ids := by rwa [mark.id_apply, hid]
    rw [Function.comp_apply, onlyAt_of_eq hid, markListed, if_neg hfirst, markListed,
      if_pos (hid ▸ List.mem_cons_self)]
  · rw [Function.comp_apply, onlyAt_of_ne hid]
    simp only [markListed, List.mem_cons, hid, false_or]

/-- Marks of distinct peers that are there come down to one map. -/
theorem run_marks (ht : t.WellFormed) (mark : Mark) (now : Time) {ids : List NodeId}
    (hdistinct : ids.Nodup) (hstored : ids ⊆ t.peers.map Peer.id) :
    t.run (ids.map fun id => mark.operation id now) =
      (ids.map fun id => ⟨mark.operation id now, .marked true⟩,
        t.mapPeers (markListed mark now ids)) := by
  induction ids generalizing t with
  | nil =>
    have hnobody : t.mapPeers (markListed mark now []) = t :=
      mapPeers_eq_self fun p _ => if_neg List.not_mem_nil
    rw [hnobody]
    rfl
  | cons id rest ih =>
    obtain ⟨hnew, hdistinct⟩ := List.nodup_cons.mp hdistinct
    obtain ⟨hhere, hstored⟩ := List.cons_subset.mp hstored
    have hanswer : (t.perform (mark.operation id now)).answer = .marked true := by
      rw [answer_perform_mark, (contains_iff ht).mpr (List.mem_map.mp hhere)]
    have hedit := t.table_perform_mark mark id now
    have hwf : (t.perform (mark.operation id now)).table.WellFormed := by
      rw [hedit]
      exact wellFormed_editOrKeep ht id (mark.id_apply now)
    rw [editOrKeep_eq_mapPeers ht] at hedit
    have hids : (t.perform (mark.operation id now)).table.peers.map Peer.id =
        t.peers.map Peer.id := by
      rw [hedit, ids_mapPeers (id_onlyAt id (mark.id_apply now))]
    rw [List.map_cons, run, ih hwf hdistinct (hids ▸ hstored), hanswer, hedit, mapPeers_mapPeers,
      markListed_cons hnew]
    rfl

/-- **Sweeps and single marks.**  To mark each stored peer once, in any order, is answered with
    yes throughout and leads to the table that a sweep leads to.  A sweep meets each stored peer
    once, in the order in which they are listed. -/
theorem sweep_marks_exact (h : t.Reachable) (mark : Mark) (now : Time) :
    (∀ ids : List NodeId, ids.Perm (t.peers.map Peer.id) →
      t.run (ids.map fun id => mark.operation id now) =
        (ids.map fun id => ⟨mark.operation id now, .marked true⟩, t.mapPeers (mark.apply now))) ∧
      t.peers.Nodup ∧
      ∀ (σ : Type) (visit : σ → Peer → σ × Peer) (state : σ),
        t.sweep (recording visit) (state, []) =
          (((t.sweep visit state).1, t.peers), (t.sweep visit state).2) := by
  have ht := h.wellFormed
  refine ⟨?_, ht.nodup_peers, fun _ => t.sweep_recording⟩
  intro ids hids
  rw [run_marks ht mark now (hids.nodup_iff.mpr ht.distinct) hids.subset]
  refine congrArg (Prod.mk _) (mapPeers_congr fun p hp => ?_)
  exact if_pos (hids.mem_iff.mpr (List.mem_map_of_mem hp))

/-- The neighbours are queried from the last to the first. -/
theorem sweep_marks_exact_neighbourhood :
    neighbourhood.Reachable ∧
      ((neighbourhood.peers.map Peer.id).reverse.Perm (neighbourhood.peers.map Peer.id) ∧
        (neighbourhood.run ((neighbourhood.peers.map Peer.id).reverse.map fun id =>
          Mark.query.operation id 7)).2 = neighbourhood.mapPeers (Mark.query.apply 7)) ∧
      (neighbourhood.mapPeers (Mark.query.apply 7)).peers.map Peer.pending =
        List.replicate 9 1 := by
  have hmarks := (sweep_marks_exact reachable_neighbourhood .query 7).1
  have horder := List.reverse_perm (neighbourhood.peers.map Peer.id)
  exact ⟨reachable_neighbourhood, ⟨horder, congrArg Prod.snd (hmarks _ horder)⟩, by decide⟩

end Table

end Kademlia
