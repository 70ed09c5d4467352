/-
  Kademlia/Proofs/Faultless.lean
  ==============================
  **No check ever fails.**

  On a table that is in order every checked operation gives what the unchecked one
  gives.  The invariant is what the checks rest on: counters are right, so they agree
  with the search for a free slot and can be lowered whenever a peer leaves; buckets are
  numbered by their places; and there is always a bucket.  One check needs more than
  that: a bit to be flipped lies inside the identifier because no table is deeper than
  158 buckets.

  Every table of a session can come about, so no session is stopped
  (`Session.checkedRun_eq_ok`).
-/
import Kademlia.Proofs.Checked
import Kademlia.Proofs.Depth

namespace Kademlia

/-! ### Checks that hold -/

namespace Checked

theorem ok_bind {α β : Type} (a : α) (f : α → Checked β) : (Except.ok a >>= f) = f a := rfl

theorem require_eq {p : Prop} [Decidable p] (h : p) (fault : Fault) : require p fault = .ok () :=
  if_pos h

theorem sub_eq {a b : Nat} (h : b ≤ a) : sub a b = .ok (a - b) :=
  if_pos h

theorem lookup_eq {α : Type} {row : List α} {i : Nat} {a : α} (h : row[i]? = some a) :
    lookup row i = .ok a := by
  rw [lookup, h]

end Checked

open Checked

/-! ### Identifiers -/

namespace NodeId

theorem lookup_toBytes (id : NodeId) {i : Nat} (h : i < 20) :
    ∃ byte, lookup id.toBytes i = .ok byte := by
  have hlen : i < id.toBytes.length := by
    rw [id.length_toBytes]
    exact h
  exact ⟨_, lookup_eq (List.getElem?_eq_getElem hlen)⟩

theorem checkedFlipBit_eq (id : NodeId) {i : Nat} (h : i < 160) :
    id.checkedFlipBit i = .ok (id.flipBit i) := by
  have hflip : id.flipBit? i = .ok (id.flipBit i) := if_pos h
  obtain ⟨byte, hbyte⟩ := id.lookup_toBytes (i := i / 8) (by omega)
  rw [checkedFlipBit, hflip, Except.mapError, ok_bind, hbyte]
  rfl

theorem checkedOverwriteLeading_eq (dst src : NodeId) {count : Nat} (h : count ≤ 160) :
    dst.checkedOverwriteLeading src count = .ok (dst.overwriteLeading src count) := by
  have hover : dst.overwriteLeading? src count = .ok (dst.overwriteLeading src count) := if_pos h
  have hsrc : count / 8 ≤ src.toBytes.length := by
    rw [length_toBytes]
    omega
  have hdst : count / 8 ≤ dst.toBytes.length := by
    rw [length_toBytes]
    omega
  rw [checkedOverwriteLeading, hover, Except.mapError, ok_bind, require_eq hsrc, ok_bind,
    require_eq hdst, ok_bind]
  by_cases hrest : count % 8 ≠ 0
  · obtain ⟨s, hs⟩ := src.lookup_toBytes (i := count / 8) (by omega)
    obtain ⟨d, hd⟩ := dst.lookup_toBytes (i := count / 8) (by omega)
    rw [if_pos hrest, hs, hd]
    rfl
  · rw [if_neg hrest]
    rfl

end NodeId

/-! ### Buckets -/

namespace Bucket

variable {b : Bucket}

theorem Counted.checkedAdd_eq (h : b.Counted) (p : Peer) (now : Time) :
    b.checkedAdd p now = .ok (b.add p now) := by
  rcases hfree : Slots.firstFree? b.slots with _ | i
  · have hsize : b.size = bucketCapacity := by
      rw [h, Slots.firstFree?_eq_none hfree, b.length_slots, bucketCapacity]
    rw [checkedAdd, add, hfree]
    dsimp only
    rw [require_eq hsize]
    rfl
  · obtain ⟨b', hadd⟩ : ∃ b', b.add p now = .ok b' := ⟨_, by rw [add, hfree]⟩
    have hsize : b.size < bucketCapacity := by
      rw [h.size_eq]
      exact length_lt_of_add_ok hadd
    rw [checkedAdd, add, hfree]
    dsimp only
    rw [require_eq hsize]
    rfl

theorem checkedExchange_eq {before after : Slots} {old : Peer}
    (h : b.slots = before ++ some old :: after) (p : Peer) (now : Time) :
    b.checkedExchange before.length p now = .ok (old, b.exchange before.length p now) := by
  have hslot : lookup b.slots before.length = .ok (some old) := by
    apply lookup_eq
    rw [h, List.getElem?_append_right (Nat.le_refl _), Nat.sub_self, List.getElem?_cons_zero]
  rw [checkedExchange, hslot]
  rfl

theorem checkedReplaceBad_eq (b : Bucket) (p : Peer) (now : Time) :
    b.checkedReplaceBad p now = .ok (b.replaceBad p now) := by
  rw [checkedReplaceBad, replaceBad]
  rcases hfirst : Slots.first? (fun q => q.status now = .bad) b.slots with _ | ⟨i, old⟩
  · rfl
  · obtain ⟨before, after, hslots, rfl, -⟩ := Slots.first?_eq_some hfirst
    rw [checkedReplace, checkedExchange_eq hslots]
    rfl

theorem checkedReplaceQuestionable_eq (b : Bucket) (p : Peer) (now : Time) :
    b.checkedReplaceQuestionable p now = .ok (b.replaceQuestionable p now) := by
  rw [checkedReplaceQuestionable, replaceQuestionable]
  rcases hleast : Slots.leastActive? (fun q => q.status now = .questionable) b.slots
    with _ | ⟨i, old⟩
  · rfl
  · obtain ⟨before, after, hslots, rfl, -⟩ := Slots.leastActive?_eq_some hleast
    rw [checkedReplace, checkedExchange_eq hslots]
    rfl

theorem Counted.checkedRemove?_eq (h : b.Counted) (id : NodeId) :
    b.checkedRemove? id = .ok (b.remove? id) := by
  rw [checkedRemove?, remove?]
  rcases hfirst : Slots.first? (fun q => q.id = id) b.slots with _ | ⟨i, old⟩
  · rfl
  · obtain ⟨before, after, hslots, -⟩ := Slots.first?_eq_some hfirst
    dsimp only
    rw [sub_eq (h.size_pos (mem_peers_of_slots hslots))]
    rfl

/-- The source counts everybody in the row that is drained, so the counter can be
    lowered for each of them; and a destination that is not full has a free slot. -/
theorem checkedDrain_eq (leaves : Peer → Bool) (now : Time) (row : Slots) {size : Nat}
    {dest : Bucket} (hsize : Slots.occupied row ≤ size) (hdest : dest.Counted) :
    checkedDrain leaves now row size dest =
      .ok (size - (drain leaves now row dest).moved, drain leaves now row dest) := by
  induction row generalizing size dest with
  | nil => rfl
  | cons slot rest ih =>
    unfold checkedDrain
    dsimp only
    by_cases hfull : dest.isFull = true
    · rw [if_pos hfull, drain_of_full hfull]
      rfl
    · rw [if_neg hfull]
      cases slot with
      | none =>
        dsimp only
        rw [ih hsize hdest]
        rfl
      | some p =>
        rw [Slots.occupied_cons_some] at hsize
        have hrest : Slots.occupied rest ≤ size - 1 := Nat.le_sub_one_of_lt hsize
        rcases hleaves : leaves p with _ | _
        · dsimp only
          rw [drain_of_stays hfull hleaves, if_neg (by simp [hleaves]),
            ih (hrest.trans (Nat.sub_le size 1)) hdest]
          rfl
        · obtain ⟨dest', hadd⟩ := exists_add (hdest.length_lt_of_not_isFull hfull) p now
          have hone : 1 ≤ size := Nat.le_of_add_left_le hsize
          dsimp only
          rw [drain_of_leaves hfull hleaves hadd, if_pos hleaves, sub_eq hone, ok_bind,
            hdest.checkedAdd_eq, ok_bind, hadd]
          dsimp only
          rw [ih hrest ((add_ok hadd).counted hdest), ok_bind, Drained.leave, Nat.sub_sub,
            Nat.add_comm 1]
          rfl

theorem Counted.checkedMigrate_eq {source dest : Bucket} (hsource : source.Counted)
    (hdest : dest.Counted) (leaves : Peer → Bool) (now : Time) :
    source.checkedMigrate dest leaves now = .ok (source.migrate dest leaves now) := by
  have hdrain := checkedDrain_eq leaves now source.slots (Nat.le_of_eq hsource.symm) hdest
  unfold checkedMigrate
  split
  · next size drained h =>
    obtain ⟨rfl, rfl⟩ := Prod.mk.inj (Except.ok.inj (h.symm.trans hdrain))
    rfl
  · next fault h =>
    rw [hdrain] at h
    cases h

end Bucket

/-! ### Closest peers -/

namespace ClosestSet

variable {s : ClosestSet}

theorem insertIdx_length_append {α : Type} (front back : List α) (a : α) :
    (front ++ back).insertIdx front.length a = front ++ a :: back := by
  induction front with
  | nil => rfl
  | cons x front ih => exact congrArg (x :: ·) ih

/-- Dropping the last entry when there is one too many leaves the front. -/
theorem dropLast_eq_take {α : Type} {row : List α} {c : Nat} (h : row.length ≤ c + 1) :
    (if c < row.length then row.dropLast else row) = row.take c := by
  by_cases hover : c < row.length
  · rw [if_pos hover, List.dropLast_eq_take, show row.length - 1 = c by omega]
  · rw [if_neg hover, List.take_of_length_le (Nat.le_of_not_lt hover)]

theorem checkedOffer_eq (h : s.size ≤ s.capacity) (p : Peer) :
    s.checkedOffer p = .ok (s.offer p) := by
  have hcut := List.takeWhile_append_dropWhile (p := fun e : ClosestEntry =>
    decide (e.distance ≤ p.id.distance s.target)) (l := s.entries)
  unfold checkedOffer offer
  dsimp only
  generalize s.entries.takeWhile (fun e => decide (e.distance ≤ p.id.distance s.target)) = front
    at hcut ⊢
  generalize s.entries.dropWhile (fun e => decide (e.distance ≤ p.id.distance s.target)) = back
    at hcut ⊢
  have hplace : front.length ≤ s.size := by
    rw [size, ← hcut, List.length_append]
    exact Nat.le_add_right _ _
  by_cases hfull : s.capacity ≤ front.length
  · rw [if_pos hfull, if_pos hfull]
    rfl
  · have hlen : (front ++ ⟨p, p.id.distance s.target⟩ :: back).length ≤ s.capacity + 1 := by
      rw [size, ← hcut, List.length_append] at h
      rw [List.length_append, List.length_cons]
      omega
    rw [if_neg hfull, if_neg hfull, require_eq hplace, ok_bind, ← hcut, insertIdx_length_append,
      dropLast_eq_take hlen]
    rfl

theorem capacity_offer (s : ClosestSet) (p : Peer) : (s.offer p).2.capacity = s.capacity := by
  unfold offer
  dsimp only
  split <;> rfl

theorem size_offer_le (h : s.size ≤ s.capacity) (p : Peer) :
    (s.offer p).2.size ≤ s.capacity := by
  unfold offer
  dsimp only
  split
  · exact h
  · exact List.length_take_le _ _

theorem checkedExtend_eq (h : s.size ≤ s.capacity) (ps : List Peer) :
    s.checkedExtend ps = .ok (s.extend ps) := by
  induction ps generalizing s with
  | nil => rfl
  | cons p rest ih =>
    have hnext : (s.offer p).2.size ≤ (s.offer p).2.capacity := by
      rw [capacity_offer]
      exact size_offer_le h p
    rw [checkedExtend, List.foldlM_cons, checkedOffer_eq h]
    exact ih hnext

end ClosestSet

/-! ### Tables -/

namespace Table

variable {t : Table}

theorem checkedGatherClosest_eq (t : Table) (target : NodeId) :
    t.checkedGatherClosest target = .ok (t.gatherClosest target) := by
  have hempty : (ClosestSet.new target).size ≤ (ClosestSet.new target).capacity := Nat.zero_le _
  rw [checkedGatherClosest, ClosestSet.checkedExtend_eq hempty]
  rfl

theorem checkedCanSplit_eq (t : Table) (i : Nat) (candidate : NodeId) :
    t.checkedCanSplit i candidate = .ok (t.canSplit i candidate) := by
  unfold checkedCanSplit canSplit
  by_cases hgrow : i + 1 = t.bucketCount ∧ t.bucketCount < maxBuckets
  · have hlookup : lookup t.buckets i = .ok t.last := by
      apply lookup_eq
      rw [show i = t.bucketCount - 1 by omega]
      exact t.getElem?_last
    rw [if_neg (by omega), hlookup, decide_eq_true hgrow.1, decide_eq_true hgrow.2]
    by_cases hdeeper : i < t.localId.sharedBits candidate
    · rw [if_pos hdeeper, decide_eq_true hdeeper]
      rfl
    · rw [if_neg hdeeper, decide_eq_false hdeeper]
      rfl
  · rw [if_pos (by omega)]
    by_cases hlast : i + 1 = t.bucketCount
    · rw [decide_eq_false (p := t.bucketCount < maxBuckets) (fun h => hgrow ⟨hlast, h⟩),
        Bool.and_false]
      rfl
    · rw [decide_eq_false hlast]
      rfl

theorem lt_maxBuckets_of_canSplit {i : Nat} {candidate : NodeId}
    (h : t.canSplit i candidate = true) : t.bucketCount < maxBuckets := by
  rw [canSplit, Bool.and_eq_true, Bool.and_eq_true] at h
  exact of_decide_eq_true h.1.2

theorem set_last_append (t : Table) (source dest : Bucket) :
    t.buckets.set (t.bucketCount - 1) source ++ [dest] =
      t.buckets.dropLast ++ [source, dest] := by
  have hdrop : t.buckets.dropLast.length = t.bucketCount - 1 := List.length_dropLast
  conv_lhs => rw [t.buckets_eq_last]
  rw [← hdrop, List.set_append_right _ _ (Nat.le_refl _), Nat.sub_self, List.set_cons_zero,
    List.append_assoc, List.singleton_append]

namespace WellFormed

theorem checkedFindBucket_eq (h : t.WellFormed) (id : NodeId) :
    t.checkedFindBucket id = .ok (t.findBucket id) := by
  have hlookup : lookup t.buckets (t.findBucket id) = .ok (t.home id) :=
    lookup_eq (t.getElem?_findBucket id)
  have hindex : (t.home id).index = t.findBucket id := h.indexed _ _ (t.getElem?_findBucket id)
  rw [findBucket] at hlookup hindex
  rw [checkedFindBucket, sub_eq t.bucketCount_pos, ok_bind]
  dsimp only
  rw [hlookup, ok_bind, require_eq hindex]
  rfl

-- the check is a real one: it fails if the only bucket has another index than its place
example : checkedFindBucket ⟨.zero, [Bucket.empty 1], by simp⟩ .zero =
    .error (.misnumbered 0 1) := by decide

theorem checkedHome_eq (h : t.WellFormed) (id : NodeId) :
    t.checkedHome id = .ok (t.findBucket id, t.home id) := by
  have hlookup : lookup t.buckets (t.findBucket id) = .ok (t.home id) :=
    lookup_eq (t.getElem?_findBucket id)
  rw [checkedHome, h.checkedFindBucket_eq, ok_bind, hlookup]
  rfl

theorem checkedFind?_eq (h : t.WellFormed) (id : NodeId) :
    t.checkedFind? id = .ok (t.find? id) := by
  rw [checkedFind?, h.checkedHome_eq]
  rfl

theorem checkedEdit?_eq (h : t.WellFormed) (id : NodeId) (f : Peer → Peer) :
    t.checkedEdit? id f = .ok (t.edit? id f) := by
  rw [checkedEdit?, h.checkedHome_eq]
  rfl

theorem checkedRemove?_eq (h : t.WellFormed) (id : NodeId) :
    t.checkedRemove? id = .ok (t.remove? id) := by
  rw [checkedRemove?, h.checkedHome_eq, ok_bind]
  dsimp only
  rw [(h.counted_home id).checkedRemove?_eq]
  rfl

theorem checkedMarkReply_eq (h : t.WellFormed) (id : NodeId) (now : Time) :
    t.checkedMarkReply id now = .ok (t.markReply id now) := by
  rw [checkedMarkReply, markReply, h.checkedEdit?_eq, ok_bind]
  cases t.edit? id (·.markReply now) with
  | none => rfl
  | some edited => rfl

theorem checkedMarkQuery_eq (h : t.WellFormed) (id : NodeId) (now : Time) :
    t.checkedMarkQuery id now = .ok (t.markQuery id now) := by
  rw [checkedMarkQuery, markQuery, h.checkedEdit?_eq, ok_bind]
  cases t.edit? id (·.markQuery now) with
  | none => rfl
  | some edited => rfl

theorem checkedSplitLast_eq (h : t.WellFormed) (hcount : t.bucketCount < maxBuckets)
    (now : Time) : t.checkedSplitLast now = .ok (t.splitLast now) := by
  rw [checkedSplitLast, require_eq hcount, ok_bind, sub_eq t.bucketCount_pos, ok_bind,
    lookup_eq t.getElem?_last, ok_bind,
    h.counted_last.checkedMigrate_eq (Bucket.counted_empty _), ok_bind]
  simp only [set_last_append]
  rfl

theorem checkedAddAfterSplit_eq (h : t.WellFormed) (hcount : t.bucketCount < maxBuckets)
    (p : Peer) (now : Time) : t.checkedAddAfterSplit p now = .ok (t.addAfterSplit p now) := by
  obtain ⟨source, dest, hsplit⟩ := t.split_splitLast now
  have hgrown := hsplit.wellFormed h
  rw [checkedAddAfterSplit, addAfterSplit, h.checkedSplitLast_eq hcount, ok_bind,
    hgrown.checkedHome_eq, ok_bind]
  dsimp only
  rw [(hgrown.counted_home p.id).checkedAdd_eq, ok_bind]
  cases ((t.splitLast now).table.home p.id).add p now with
  | error e => rfl
  | ok b => rfl

theorem checkedInsertIntoFull_eq (h : t.WellFormed) (i : Nat) (b : Bucket) (p : Peer)
    (now : Time) : t.checkedInsertIntoFull i b p now = .ok (t.insertIntoFull i b p now) := by
  rw [checkedInsertIntoFull, insertIntoFull, Bucket.checkedReplaceBad_eq, ok_bind]
  cases b.replaceBad p now with
  | ok exchanged => rfl
  | error q =>
    dsimp only
    rw [Bucket.checkedReplaceQuestionable_eq, ok_bind]
    cases b.replaceQuestionable q now with
    | ok exchanged => rfl
    | error q =>
      dsimp only
      rw [checkedCanSplit_eq, ok_bind]
      by_cases hsplit : t.canSplit i q.id = true
      · have hcount := lt_maxBuckets_of_canSplit hsplit
        rw [if_pos hsplit, if_pos hsplit, h.checkedAddAfterSplit_eq hcount]
      · rw [if_neg hsplit, if_neg hsplit]
        rfl

/-- The counter says whether the bucket has room, so a bucket that is not full takes
    the peer. -/
theorem checkedInsert_eq (h : t.WellFormed) (p : Peer) (now : Time) :
    t.checkedInsert p now = .ok (t.insert p now) := by
  have hcounted := h.counted_home p.id
  unfold checkedInsert insert
  dsimp only
  by_cases hself : p.id = t.localId
  · rw [if_pos hself, if_pos hself]
    rfl
  · rw [if_neg hself, if_neg hself, h.checkedHome_eq, ok_bind]
    dsimp only
    by_cases hpresent : (t.home p.id).contains p.id = true
    · rw [if_pos hpresent, if_pos hpresent]
      rfl
    · rw [if_neg hpresent, if_neg hpresent]
      by_cases hfull : (t.home p.id).isFull = true
      · rw [if_pos hfull, if_pos hfull]
        exact h.checkedInsertIntoFull_eq _ _ p now
      · rw [if_neg hfull, if_neg hfull, hcounted.checkedAdd_eq, ok_bind]
        rcases hadd : (t.home p.id).add p now with e | b
        · exact absurd (hcounted.isFull_iff.mpr (Bucket.add_error hadd)) hfull
        · rfl

theorem checkedInsertAll_eq (h : t.WellFormed) (clock : Nat → Time) (ps : List Peer) :
    t.checkedInsertAll clock ps = .ok (t.insertAll clock ps) := by
  induction ps generalizing t clock with
  | nil => rfl
  | cons p rest ih =>
    have hrest := ih (wellFormed_insert h p (clock 0)) fun n => clock (n + 1)
    rw [checkedInsertAll, h.checkedInsert_eq, ok_bind, hrest]
    rfl

theorem checkedPerform_eq (h : t.WellFormed) (operation : Operation) :
    t.checkedPerform operation = .ok (t.perform operation) := by
  cases operation with
  | insert p now =>
    rw [checkedPerform, h.checkedInsert_eq]
    rfl
  | remove id =>
    rw [checkedPerform, perform, h.checkedRemove?_eq, ok_bind]
    cases t.remove? id with
    | none => rfl
    | some removed => rfl
  | markReply id now =>
    rw [checkedPerform, h.checkedMarkReply_eq]
    rfl
  | markQuery id now =>
    rw [checkedPerform, h.checkedMarkQuery_eq]
    rfl
  | edit id plan =>
    rw [checkedPerform, perform, h.checkedEdit?_eq, ok_bind]
    cases t.edit? id fun p => p.editAll (plan p) with
    | none => rfl
    | some edited => rfl

end WellFormed

theorem checkedRestore_eq (localId : NodeId) (contacts : List Contact) (clock : Nat → Time) :
    checkedRestore localId contacts clock = .ok (restore localId contacts clock) :=
  (wellFormed_new localId).checkedInsertAll_eq clock _

theorem checkedSeed_eq (localId : NodeId) (source : Table) (target : NodeId)
    (clock : Nat → Time) :
    checkedSeed localId source target clock = .ok (seed localId source target clock) := by
  rw [checkedSeed, checkedGatherClosest_eq, ok_bind]
  exact (wellFormed_new localId).checkedInsertAll_eq clock _

/-- No bucket before the last has an index above 156, so the bit that is flipped is one
    of the identifier's. -/
theorem Reachable.checkedRandomId?_eq (h : t.Reachable) (i : Nat) (drawn : NodeId) :
    t.checkedRandomId? i drawn = .ok (t.randomId? i drawn) := by
  have hdepth := h.bucketCount_le
  unfold checkedRandomId? randomId?
  by_cases hpast : t.bucketCount ≤ i
  · rw [if_pos hpast, if_pos hpast]
    rfl
  · rw [if_neg hpast, if_neg hpast]
    by_cases hlast : i + 1 = t.bucketCount
    · rw [if_pos hlast, if_pos hlast, NodeId.checkedOverwriteLeading_eq _ _ (by omega)]
      rfl
    · rw [if_neg hlast, if_neg hlast, NodeId.checkedFlipBit_eq _ (by omega), ok_bind,
        NodeId.checkedOverwriteLeading_eq _ _ (by omega)]
      rfl

theorem Reachable.checkedAsk_eq (h : t.Reachable) (query : Query) :
    t.checkedAsk query = .ok (t.ask query) := by
  cases query with
  | findBucket id =>
    rw [checkedAsk, h.wellFormed.checkedFindBucket_eq]
    rfl
  | find id =>
    rw [checkedAsk, h.wellFormed.checkedFind?_eq]
    rfl
  | closest target =>
    rw [checkedAsk, checkedGatherClosest_eq]
    rfl
  | snapshot => rfl
  | randomId i drawn =>
    rw [checkedAsk, h.checkedRandomId?_eq]
    rfl

end Table

/-! ### Sessions -/

namespace Session

/-- Every table of a session can come about. -/
def Sound (s : Session) : Prop :=
  ∀ t ∈ s, t.Reachable

variable {s : Session}

namespace Sound

theorem append (h : s.Sound) {t : Table} (ht : t.Reachable) : Sound (s ++ [t]) := by
  intro x hx
  rcases List.mem_append.mp hx with hx | hx
  · exact h x hx
  · rw [List.mem_singleton.mp hx]
    exact ht

theorem set (h : s.Sound) {t : Table} (ht : t.Reachable) (k : Nat) : Sound (s.set k t) := by
  intro x hx
  rcases List.mem_or_eq_of_mem_set hx with hx | rfl
  · exact h x hx
  · exact ht

theorem withTable (h : s.Sound) (k : Nat) {work : Table → Reply × Session}
    (hwork : ∀ t : Table, t.Reachable → (work t).2.Sound) : (s.withTable k work).2.Sound := by
  rcases hk : s[k]? with _ | t
  · rw [Session.withTable, hk]
    exact h
  · rw [Session.withTable, hk]
    exact hwork t (h t (List.mem_of_getElem? hk))

theorem checkedWithTable_eq (h : s.Sound) (k : Nat) {work : Table → Reply × Session}
    {checkedWork : Table → Checked (Reply × Session)}
    (hwork : ∀ t : Table, t.Reachable → checkedWork t = .ok (work t)) :
    s.checkedWithTable k checkedWork = .ok (s.withTable k work) := by
  rcases hk : s[k]? with _ | t
  · rw [checkedWithTable, Session.withTable, hk]
    rfl
  · rw [checkedWithTable, Session.withTable, hk]
    exact hwork t (h t (List.mem_of_getElem? hk))

/-- No call makes a table that cannot come about. -/
theorem respond (h : s.Sound) (call : Call) : (s.respond call).2.Sound := by
  cases call with
  | new localId => exact h.append (.new localId)
  | restore localId contacts clock => exact h.append (.restore localId contacts clock)
  | seed localId k target clock =>
    apply h.withTable k
    intro source hsource
    exact h.append (.seed localId target clock hsource)
  | perform k operation =>
    apply h.withTable k
    intro t ht
    exact h.set (.perform operation ht) k
  | sweep k plan state =>
    apply h.withTable k
    intro t ht
    exact h.set (.sweep plan state ht) k
  | ask k query =>
    apply h.withTable k
    intro t _
    exact h

theorem checkedRespond_eq (h : s.Sound) (call : Call) :
    s.checkedRespond call = .ok (s.respond call) := by
  cases call with
  | new localId => rfl
  | restore localId contacts clock =>
    rw [checkedRespond, Table.checkedRestore_eq]
    rfl
  | seed localId k target clock =>
    apply h.checkedWithTable_eq k
    intro source _
    rw [Table.checkedSeed_eq]
    rfl
  | perform k operation =>
    apply h.checkedWithTable_eq k
    intro t ht
    rw [ht.wellFormed.checkedPerform_eq]
    rfl
  | sweep k plan state =>
    apply h.checkedWithTable_eq k
    intro t _
    rfl
  | ask k query =>
    apply h.checkedWithTable_eq k
    intro t ht
    rw [ht.checkedAsk_eq]
    rfl

theorem checkedRun_eq (h : s.Sound) (calls : List Call) :
    s.checkedRun calls = .ok (s.run calls) := by
  induction calls generalizing s with
  | nil => rfl
  | cons call rest ih =>
    rw [checkedRun, h.checkedRespond_eq, ok_bind, ih (h.respond call)]
    rfl

end Sound

/-- **No check ever fails.**  Whatever is done in a session, and in which order, none of
    the checks stops it: it ends with the replies and the tables of the unchecked
    operations. -/
theorem checkedRun_eq_ok (calls : List Call) : checkedRun [] calls = .ok (run [] calls) := by
  apply Sound.checkedRun_eq
  intro t ht
  cases ht

end Session

end Kademlia
