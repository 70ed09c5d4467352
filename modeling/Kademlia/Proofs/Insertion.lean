/-
  Kademlia/Proofs/Insertion.lean
  ==============================
  **Everything that one operation can do to a table.**

  `Insertion t p now` lists the seven ways in which an insertion can end, each
  with what is known on the way there and with the change it makes.
  `insert_cases` says that there are no others in a table that is in order; what
  an insertion keeps, answers or costs is then a case analysis on this list.
  Removals and edits change a single slot or nothing at all.
-/
import Kademlia.Proofs.Table
import Kademlia.Table.Directed
import Kademlia.Table.Sweep

namespace Kademlia.Table

/-! ### Insertion -/

/-- Nothing speaks against a peer but a lack of room. -/
structure Absent (t : Table) (p : Peer) : Prop where
  foreign : p.id ≠ t.localId
  fresh : ∀ q ∈ t.peers, q.id ≠ p.id

/-- The bucket responsible for a peer is full of peers that may not be displaced. -/
structure Blocked (t : Table) (p : Peer) (now : Time) : Prop where
  full : (t.home p.id).peers.length = 8
  kept : ∀ q ∈ (t.home p.id).peers, q.status now ≠ .bad ∧ q.status now ≠ .questionable

/-- A peer that is not there yet can be put into any slot of its bucket. -/
theorem SlotChange.wellFormed_of_absent {t t' : Table} {p : Peer} {old : Option Peer}
    (h : t.SlotChange (t.findBucket p.id) old (some p) t') (ht : t.WellFormed)
    (habsent : t.Absent p) : t'.WellFormed := by
  apply h.wellFormed ht
  · rintro q ⟨⟩
    rfl
  · rintro q ⟨⟩
    exact habsent.foreign
  · rintro q ⟨⟩ x hx hid
    exact absurd hid (habsent.fresh x hx)

theorem Split.absent {t t₁ : Table} {source dest : Bucket} {p : Peer}
    (h : t.Split source dest t₁) (habsent : t.Absent p) : t₁.Absent p where
  foreign := by
    rw [h.localId_eq]
    exact habsent.foreign
  fresh := by
    intro q hq
    exact habsent.fresh q (h.peers_perm.mem_iff.mp hq)

/-- The ways in which the insertion of `p` at `now` can end. -/
inductive Insertion (t : Table) (p : Peer) (now : Time) : Update Outcome → Prop where
  | self : p.id = t.localId → Insertion t p now ⟨.selfEntry, t, []⟩
  | present : p.id ≠ t.localId → (∃ q ∈ t.peers, q.id = p.id) →
      Insertion t p now ⟨.alreadyPresent, t, []⟩
  | added {t' : Table} : t.Absent p → (t.home p.id).peers.length < 8 →
      t.SlotChange (t.findBucket p.id) none (some p) t' →
      Insertion t p now ⟨.added (t.findBucket p.id), t', []⟩
  | replaced {t' : Table} {old : Peer} {events : List Event} : t.Absent p →
      (t.home p.id).peers.length = 8 → old ∈ (t.home p.id).peers →
      (old.status now = .bad ∨ old.status now = .questionable) →
      t.SlotChange (t.findBucket p.id) (some old) (some p) t' →
      Insertion t p now ⟨.replaced (t.findBucket p.id) old, t', events⟩
  | refused {events : List Event} : t.Absent p → t.Blocked p now →
      t.canSplit (t.findBucket p.id) p.id = false → Insertion t p now ⟨.full, t, events⟩
  | addedAfterSplit {source dest : Bucket} {t₁ t₂ : Table} {events : List Event} :
      t.Absent p → t.Blocked p now → t.canSplit (t.findBucket p.id) p.id = true →
      t.Split source dest t₁ → (t₁.home p.id).peers.length < 8 →
      t₁.SlotChange (t₁.findBucket p.id) none (some p) t₂ →
      Insertion t p now ⟨.added (t₁.findBucket p.id), t₂, events⟩
  | refusedAfterSplit {source dest : Bucket} {t₁ : Table} {events : List Event} :
      t.Absent p → t.Blocked p now → t.canSplit (t.findBucket p.id) p.id = true →
      t.Split source dest t₁ → (t₁.home p.id).peers.length = 8 →
      Insertion t p now ⟨.full, t₁, events⟩

theorem addAfterSplit_cases {t : Table} {p : Peer} {now : Time}
    (habsent : t.Absent p) (hblocked : t.Blocked p now)
    (hsplit : t.canSplit (t.findBucket p.id) p.id = true) :
    Insertion t p now (t.addAfterSplit p now) := by
  obtain ⟨source, dest, hchange⟩ := t.split_splitLast now
  unfold addAfterSplit
  rcases hadd : ((t.splitLast now).table.home p.id).add p now with e | b
  · simp only [hadd]
    exact .refusedAfterSplit habsent hblocked hsplit hchange (Bucket.add_error hadd)
  · simp only [hadd]
    exact .addedAfterSplit habsent hblocked hsplit hchange (Bucket.length_lt_of_add_ok hadd)
      (slotChange_setBucket (Bucket.add_ok hadd))

theorem insertIntoFull_cases {t : Table} {p : Peer} {now : Time} (habsent : t.Absent p)
    (hfull : (t.home p.id).peers.length = 8) :
    Insertion t p now (t.insertIntoFull (t.findBucket p.id) (t.home p.id) p now) := by
  unfold insertIntoFull
  rcases hbad : (t.home p.id).replaceBad p now with q | ⟨old, b⟩
  · obtain ⟨rfl, hnobad⟩ := Bucket.replaceBad_error hbad
    simp only
    rcases hquest : (t.home q.id).replaceQuestionable q now with q' | ⟨old, b⟩
    · obtain ⟨rfl, hnoquest⟩ := Bucket.replaceQuestionable_error hquest
      have hblocked : t.Blocked q' now := ⟨hfull, fun x hx => ⟨hnobad x hx, hnoquest x hx⟩⟩
      simp only
      by_cases hsplit : t.canSplit (t.findBucket q'.id) q'.id = true
      · rw [if_pos hsplit]
        exact addAfterSplit_cases habsent hblocked hsplit
      · rw [if_neg hsplit]
        exact .refused habsent hblocked (by simpa using hsplit)
    · obtain ⟨hchange, hstatus⟩ := Bucket.replaceQuestionable_ok hquest
      exact .replaced habsent hfull hchange.old_mem (Or.inr hstatus)
        (slotChange_setBucket hchange)
  · obtain ⟨hchange, hstatus⟩ := Bucket.replaceBad_ok hbad
    exact .replaced habsent hfull hchange.old_mem (Or.inl hstatus)
      (slotChange_setBucket hchange)

theorem Absent.not_contains_home {t : Table} {p : Peer} (habsent : t.Absent p)
    (ht : t.WellFormed) : ¬ (t.home p.id).contains p.id = true := by
  intro hcontains
  obtain ⟨q, hq, hid⟩ := ht.contains_home_iff.mp hcontains
  exact habsent.fresh q hq hid

/-- An absent peer whose bucket has room is added to that bucket. -/
theorem insert_of_room {t : Table} {p : Peer} (ht : t.WellFormed) (habsent : t.Absent p)
    (hroom : (t.home p.id).peers.length < 8) (now : Time) :
    ∃ b, (t.home p.id).add p now = .ok b ∧
      t.insert p now = ⟨.added (t.findBucket p.id), t.setBucket (t.findBucket p.id) b, []⟩ := by
  obtain ⟨b, hadd⟩ := Bucket.exists_add hroom p now
  have hnew := habsent.not_contains_home ht
  have hfull : ¬ (t.home p.id).isFull = true := by
    intro hfull
    have := (ht.counted_home p.id).isFull_iff.mp hfull
    omega
  refine ⟨b, hadd, ?_⟩
  simp only [insert, if_neg habsent.foreign, if_neg hnew, if_neg hfull, hadd]

/-- For an absent peer whose bucket is full, room has to be made. -/
theorem insert_of_full {t : Table} {p : Peer} (ht : t.WellFormed) (habsent : t.Absent p)
    (hfull : (t.home p.id).peers.length = 8) (now : Time) :
    t.insert p now = t.insertIntoFull (t.findBucket p.id) (t.home p.id) p now := by
  have hnew := habsent.not_contains_home ht
  have hisFull := (ht.counted_home p.id).isFull_iff.mpr hfull
  simp only [insert, if_neg habsent.foreign, if_neg hnew, if_pos hisFull]

/-- If nobody there may be displaced, a split is all that can make room. -/
theorem insert_of_canSplit {t : Table} {p : Peer} {now : Time} (ht : t.WellFormed)
    (habsent : t.Absent p) (hblocked : t.Blocked p now)
    (hsplit : t.canSplit (t.findBucket p.id) p.id = true) :
    t.insert p now = t.addAfterSplit p now := by
  rw [insert_of_full ht habsent hblocked.full, insertIntoFull]
  rcases hbad : (t.home p.id).replaceBad p now with q | ⟨old, b⟩
  · obtain ⟨rfl, -⟩ := Bucket.replaceBad_error hbad
    rcases hquest : (t.home q.id).replaceQuestionable q now with q' | ⟨old, b⟩
    · obtain ⟨rfl, -⟩ := Bucket.replaceQuestionable_error hquest
      simp only [if_pos hsplit, hquest]
    · obtain ⟨hchange, hstatus⟩ := Bucket.replaceQuestionable_ok hquest
      exact absurd hstatus (hblocked.kept old hchange.old_mem).2
  · obtain ⟨hchange, hstatus⟩ := Bucket.replaceBad_ok hbad
    exact absurd hstatus (hblocked.kept old hchange.old_mem).1

/-- **Insertions.**  In a table that is in order an insertion ends in one of the
    listed ways. -/
theorem insert_cases {t : Table} (ht : t.WellFormed) (p : Peer) (now : Time) :
    Insertion t p now (t.insert p now) := by
  by_cases hself : p.id = t.localId
  · simp only [insert, if_pos hself]
    exact .self hself
  · by_cases hpresent : (t.home p.id).contains p.id = true
    · simp only [insert, if_neg hself, if_pos hpresent]
      exact .present hself (ht.contains_home_iff.mp hpresent)
    · have habsent : t.Absent p := by
        refine ⟨hself, ?_⟩
        intro q hq hid
        exact hpresent (ht.contains_home_iff.mpr ⟨q, hq, hid⟩)
      have hcounted := ht.counted_home p.id
      by_cases hfull : (t.home p.id).isFull = true
      · have height := hcounted.isFull_iff.mp hfull
        rw [insert_of_full ht habsent height]
        exact insertIntoFull_cases habsent height
      · have hroom := hcounted.length_lt_of_not_isFull hfull
        obtain ⟨b, hadd, hinsert⟩ := insert_of_room ht habsent hroom now
        rw [hinsert]
        exact .added habsent hroom (slotChange_setBucket (Bucket.add_ok hadd))

/-! ### Looking a peer up -/

theorem find?_eq_some_iff {t : Table} (ht : t.WellFormed) {id : NodeId} {q : Peer} :
    t.find? id = some q ↔ q ∈ t.peers ∧ q.id = id := by
  constructor
  · intro h
    have hid : q.id = id := by simpa using List.find?_some h
    exact ⟨mem_peers.mpr ⟨_, t.home_mem id, List.mem_of_find?_eq_some h⟩, hid⟩
  · rintro ⟨hq, rfl⟩
    rcases hfind : t.find? q.id with _ | p
    · have hnone := List.find?_eq_none.mp hfind q (ht.mem_home hq)
      simp at hnone
    · have hid : p.id = q.id := by simpa using List.find?_some hfind
      have hp : p ∈ t.peers := mem_peers.mpr ⟨_, t.home_mem q.id, List.mem_of_find?_eq_some hfind⟩
      rw [ht.eq_of_id_eq hp hq hid]

theorem find?_congr {t t' : Table} (ht : t.WellFormed) (ht' : t'.WellFormed)
    (h : t'.peers.Perm t.peers) (id : NodeId) : t'.find? id = t.find? id := by
  apply Option.ext
  intro q
  rw [find?_eq_some_iff ht, find?_eq_some_iff ht', h.mem_iff]

theorem SlotChange.find?_eq {t t' : Table} {i : Nat} {old new : Option Peer}
    (h : t.SlotChange i old new t') (ht : t.WellFormed) (ht' : t'.WellFormed) (id : NodeId) :
    t'.find? id = if ∃ p ∈ new, p.id = id then new
      else if ∃ p ∈ old, p.id = id then none else t.find? id := by
  apply Option.ext
  intro q
  rw [find?_eq_some_iff ht']
  by_cases hnew : ∃ p ∈ new, p.id = id
  · rw [if_pos hnew]
    obtain ⟨p, hp, rfl⟩ := hnew
    have hmem := (h.mem_peers_iff ht).mpr (Or.inl hp)
    constructor
    · rintro ⟨hq, hid⟩
      rw [ht'.eq_of_id_eq hq hmem hid]
      exact hp
    · intro hq
      obtain rfl := Option.mem_unique hp hq
      exact ⟨hmem, rfl⟩
  · rw [if_neg hnew, h.mem_peers_iff ht]
    by_cases hold : ∃ p ∈ old, p.id = id
    · rw [if_pos hold]
      obtain ⟨p, rfl, rfl⟩ := hold
      constructor
      · rintro ⟨hq | ⟨hq, hne⟩, hid⟩
        · exact absurd ⟨q, hq, hid⟩ hnew
        · exact absurd (congrArg some (ht.eq_of_id_eq h.old_mem hq hid.symm)) hne
      · intro hq
        cases hq
    · rw [if_neg hold, find?_eq_some_iff ht]
      constructor
      · rintro ⟨hq | ⟨hq, -⟩, hid⟩
        · exact absurd ⟨q, hq, hid⟩ hnew
        · exact ⟨hq, hid⟩
      · rintro ⟨hq, hid⟩
        exact ⟨Or.inr ⟨hq, fun hmem => hold ⟨q, hmem, hid⟩⟩, hid⟩

/-! ### Removal and edits -/

theorem remove?_eq_some {t t' : Table} {id : NodeId} {p : Peer}
    (h : t.remove? id = some (p, t')) :
    t.SlotChange (t.findBucket id) (some p) none t' ∧ p.id = id := by
  simp only [remove?, Option.map_eq_some_iff, Prod.exists, Prod.mk.injEq] at h
  obtain ⟨q, b, hb, rfl, rfl⟩ := h
  obtain ⟨hchange, hid⟩ := Bucket.remove?_eq_some hb
  exact ⟨slotChange_setBucket hchange, hid⟩

theorem remove?_eq_none {t : Table} (ht : t.WellFormed) {id : NodeId}
    (h : t.remove? id = none) : ∀ p ∈ t.peers, p.id ≠ id := by
  rintro p hp rfl
  rw [remove?, Option.map_eq_none_iff] at h
  exact Bucket.remove?_eq_none h p (ht.mem_home hp) rfl

theorem edit?_eq_some {t t' : Table} {id : NodeId} {f : Peer → Peer} {p : Peer}
    (h : t.edit? id f = some (p, t')) :
    ∃ old, t.SlotChange (t.findBucket id) (some old) (some (f old)) t' ∧ old.id = id ∧
      p = f old := by
  simp only [edit?, Option.map_eq_some_iff, Prod.exists, Prod.mk.injEq] at h
  obtain ⟨q, b, hb, rfl, rfl⟩ := h
  obtain ⟨old, hchange, hid, hq⟩ := Bucket.edit?_eq_some hb
  exact ⟨old, slotChange_setBucket hchange, hid, hq⟩

theorem edit?_eq_none {t : Table} (ht : t.WellFormed) {id : NodeId} {f : Peer → Peer}
    (h : t.edit? id f = none) : ∀ p ∈ t.peers, p.id ≠ id := by
  rintro p hp rfl
  rw [edit?, Option.map_eq_none_iff] at h
  exact Bucket.edit?_eq_none h p (ht.mem_home hp) rfl

/-- The table in which the peer with an identifier, if there is one, is edited.
    Marks and edits all come down to this. -/
def editOrKeep (t : Table) (id : NodeId) (f : Peer → Peer) : Table :=
  match t.edit? id f with
  | some (_, t') => t'
  | none => t

theorem table_markReply (t : Table) (id : NodeId) (now : Time) :
    (t.markReply id now).table = t.editOrKeep id (·.markReply now) := by
  rcases h : t.edit? id (·.markReply now) with _ | ⟨p, t'⟩
  · simp only [markReply, editOrKeep, h]
  · simp only [markReply, editOrKeep, h]

theorem table_markQuery (t : Table) (id : NodeId) (now : Time) :
    (t.markQuery id now).table = t.editOrKeep id (·.markQuery now) := by
  rcases h : t.edit? id (·.markQuery now) with _ | ⟨p, t'⟩
  · simp only [markQuery, editOrKeep, h]
  · simp only [markQuery, editOrKeep, h]

theorem editOrKeep_cases {t : Table} (ht : t.WellFormed) (id : NodeId) (f : Peer → Peer) :
    (∃ old, t.SlotChange (t.findBucket id) (some old) (some (f old)) (t.editOrKeep id f) ∧
      old.id = id) ∨
    (t.editOrKeep id f = t ∧ ∀ p ∈ t.peers, p.id ≠ id) := by
  rcases h : t.edit? id f with _ | ⟨p, t'⟩
  · right
    exact ⟨by simp only [editOrKeep, h], edit?_eq_none ht h⟩
  · left
    obtain ⟨old, hchange, hid, -⟩ := edit?_eq_some h
    exact ⟨old, by simpa only [editOrKeep, h] using hchange, hid⟩

end Kademlia.Table
