/-
  Kademlia/Proofs/Bucket.lean
  ===========================
  **What the operations of a bucket do to its row and to its counter.**

  Adding, exchanging, removing and editing a peer all rewrite a single slot.
  `SlotChange b old new b'` says that `b'` comes from `b` by putting `new` where
  `old` was; each of the four operations has a lemma of that form, and what
  follows from a change of one slot is proved only once.

  A split moves peers to a bucket that was empty.  `migrate_empty` describes both
  buckets afterwards: nobody who belongs to the new one stays behind, although
  the loop may stop early.
-/
import Kademlia.Bucket
import Kademlia.Proofs.Slots
import Mathlib.Data.List.Basic

namespace Kademlia.Bucket

/-! ### The counter -/

/-- The counter of a bucket says how many of its slots are occupied. -/
def Counted (b : Bucket) : Prop :=
  b.size = Slots.occupied b.slots

theorem length_peers (b : Bucket) : b.peers.length = Slots.occupied b.slots :=
  Slots.length_occupants b.slots

theorem length_peers_le (b : Bucket) : b.peers.length ≤ 8 := by
  rw [length_peers, ← b.length_slots]
  exact Slots.occupied_le b.slots

/-- No slot of a full bucket is free. -/
theorem exists_occupant {b : Bucket} (h : b.peers.length = 8) {j : Nat} {slot : Option Peer}
    (hslot : b.slots[j]? = some slot) : ∃ q ∈ b.peers, slot = some q := by
  have hrow := Slots.eq_map_some (h.trans b.length_slots.symm)
  have hmem : slot ∈ (Slots.occupants b.slots).map some := hrow ▸ List.mem_of_getElem? hslot
  obtain ⟨q, hq, rfl⟩ := List.mem_map.mp hmem
  exact ⟨q, hq, rfl⟩

theorem Counted.size_eq {b : Bucket} (h : b.Counted) : b.size = b.peers.length := by
  rw [length_peers]
  exact h

theorem Counted.isFull_iff {b : Bucket} (h : b.Counted) :
    b.isFull = true ↔ b.peers.length = 8 := by
  simp [isFull, bucketCapacity, h.size_eq]

theorem Counted.length_lt_of_not_isFull {b : Bucket} (h : b.Counted) (hfull : ¬ b.isFull = true) :
    b.peers.length < 8 :=
  Nat.lt_of_le_of_ne b.length_peers_le fun hlen => hfull (h.isFull_iff.mpr hlen)

theorem mem_peers_of_slots {b : Bucket} {before after : Slots} {p : Peer}
    (h : b.slots = before ++ some p :: after) : p ∈ b.peers := by
  rw [peers, Slots.mem_occupants, h]
  exact List.mem_append_right before List.mem_cons_self

theorem Counted.size_pos {b : Bucket} (h : b.Counted) {p : Peer} (hp : p ∈ b.peers) :
    0 < b.size := by
  rw [h.size_eq]
  exact List.length_pos_of_mem hp

theorem contains_iff {b : Bucket} {id : NodeId} :
    b.contains id = true ↔ ∃ p ∈ b.peers, p.id = id := by
  simp [contains]

@[simp] theorem peers_empty (i : Nat) : (empty i).peers = [] := rfl

theorem counted_empty (i : Nat) : (empty i).Counted := rfl

/-! ### Changes to one slot -/

/-- One slot of `b` held `old` and holds `new` in `b'`; the others are as they
    were, and a counter that was right still is. -/
structure SlotChange (b : Bucket) (old new : Option Peer) (b' : Bucket) : Prop where
  index_eq : b'.index = b.index
  counted : b.Counted → b'.Counted
  split : ∃ before after, b.slots = before ++ old :: after ∧ b'.slots = before ++ new :: after

theorem SlotChange.peers_split {b b' : Bucket} {old new : Option Peer}
    (h : SlotChange b old new b') :
    ∃ before after, b.peers = before ++ old.toList ++ after ∧
      b'.peers = before ++ new.toList ++ after := by
  obtain ⟨before, after, hb, hb'⟩ := h.split
  refine ⟨Slots.occupants before, Slots.occupants after, ?_, ?_⟩
  · rw [peers, hb]
    cases old <;> simp
  · rw [peers, hb']
    cases new <;> simp

theorem SlotChange.old_mem {b b' : Bucket} {p : Peer} {new : Option Peer}
    (h : SlotChange b (some p) new b') : p ∈ b.peers := by
  obtain ⟨before, after, hb, -⟩ := h.peers_split
  simp [hb]

theorem counted_of_split {b b' : Bucket} {before after : Slots} {old new : Option Peer}
    (hb : b.slots = before ++ old :: after) (hb' : b'.slots = before ++ new :: after)
    (hsize : b'.size + old.toList.length = b.size + new.toList.length)
    (h : b.Counted) : b'.Counted := by
  unfold Counted at h ⊢
  rw [h, hb] at hsize
  rw [hb']
  cases old <;> cases new <;> simp_all [Slots.occupied] <;> omega

theorem slotChange_of_set {b b' : Bucket} {before after : Slots} {old new : Option Peer}
    (hb : b.slots = before ++ old :: after)
    (hslots : b'.slots = b.slots.set before.length new) (hindex : b'.index = b.index)
    (hsize : b.Counted → b'.size + old.toList.length = b.size + new.toList.length) :
    SlotChange b old new b' := by
  have hb' : b'.slots = before ++ new :: after := by
    rw [hslots, hb, Slots.set_split]
  exact ⟨hindex, fun h => counted_of_split hb hb' (hsize h) h, before, after, hb, hb'⟩

/-! ### Adding -/

theorem add_ok {b b' : Bucket} {p : Peer} {now : Time} (h : b.add p now = .ok b') :
    SlotChange b none (some p) b' := by
  rcases hfree : Slots.firstFree? b.slots with _ | i
  · simp [add, hfree] at h
  · obtain ⟨ps, after, hslots, rfl⟩ := Slots.firstFree?_eq_some hfree
    simp only [add, hfree, Except.ok.injEq] at h
    subst h
    refine slotChange_of_set hslots ?_ ?_ ?_
    · rw [List.length_map]
      rfl
    · rfl
    · intro _
      rfl

/-- The peer goes into the first free slot. -/
theorem add_place {b b' : Bucket} {p : Peer} {now : Time} (h : b.add p now = .ok b') :
    ∃ j, Slots.firstFree? b.slots = some j ∧ b'.slots = b.slots.set j (some p) := by
  rcases hfree : Slots.firstFree? b.slots with _ | j
  · simp [add, hfree] at h
  · simp only [add, hfree, Except.ok.injEq] at h
    subst h
    exact ⟨j, rfl, rfl⟩

theorem add_error {b : Bucket} {p : Peer} {now : Time} {e : BucketFull}
    (h : b.add p now = .error e) : b.peers.length = 8 := by
  rcases hfree : Slots.firstFree? b.slots with _ | i
  · rw [length_peers, Slots.firstFree?_eq_none hfree, b.length_slots]
  · simp [add, hfree] at h

theorem exists_add {b : Bucket} (h : b.peers.length < 8) (p : Peer) (now : Time) :
    ∃ b', b.add p now = .ok b' := by
  rcases hadd : b.add p now with e | b'
  · have := add_error hadd
    omega
  · exact ⟨b', rfl⟩

/-- A bucket that takes a peer has had room for it. -/
theorem length_lt_of_add_ok {b b' : Bucket} {p : Peer} {now : Time} (h : b.add p now = .ok b') :
    b.peers.length < 8 := by
  obtain ⟨before, after, hb, hb'⟩ := (add_ok h).peers_split
  have hle := length_peers_le b'
  rw [hb'] at hle
  rw [hb]
  simp only [Option.toList, List.append_nil, List.length_append, List.length_cons,
    List.length_nil] at hle ⊢
  omega

/-! ### Exchanging -/

theorem slotChange_exchange {b : Bucket} {before after : Slots} {old : Peer}
    (hb : b.slots = before ++ some old :: after) (p : Peer) (now : Time) :
    SlotChange b (some old) (some p) (b.exchange before.length p now) := by
  refine slotChange_of_set hb ?_ ?_ ?_
  · rfl
  · rfl
  · intro _
    rfl

theorem replaceBad_ok {b b' : Bucket} {p old : Peer} {now : Time}
    (h : b.replaceBad p now = .ok (old, b')) :
    SlotChange b (some old) (some p) b' ∧ old.status now = .bad := by
  rcases hfirst : Slots.first? (fun q => q.status now = .bad) b.slots with _ | ⟨i, q⟩
  · simp [replaceBad, hfirst] at h
  · obtain ⟨before, after, hslots, rfl, hbad, -⟩ := Slots.first?_eq_some hfirst
    simp only [replaceBad, hfirst, Except.ok.injEq, Prod.mk.injEq] at h
    obtain ⟨rfl, rfl⟩ := h
    exact ⟨slotChange_exchange hslots p now, by simpa using hbad⟩

theorem replaceBad_error {b : Bucket} {p q : Peer} {now : Time}
    (h : b.replaceBad p now = .error q) : q = p ∧ ∀ x ∈ b.peers, x.status now ≠ .bad := by
  rcases hfirst : Slots.first? (fun q => q.status now = .bad) b.slots with _ | ⟨i, old⟩
  · simp only [replaceBad, hfirst, Except.error.injEq] at h
    refine ⟨h.symm, ?_⟩
    intro x hx
    simpa using Slots.first?_eq_none hfirst x hx
  · simp [replaceBad, hfirst] at h

theorem replaceQuestionable_ok {b b' : Bucket} {p old : Peer} {now : Time}
    (h : b.replaceQuestionable p now = .ok (old, b')) :
    SlotChange b (some old) (some p) b' ∧ old.status now = .questionable := by
  rcases hleast : Slots.leastActive? (fun q => q.status now = .questionable) b.slots
    with _ | ⟨i, q⟩
  · simp [replaceQuestionable, hleast] at h
  · obtain ⟨before, after, hslots, rfl, hquest⟩ := Slots.leastActive?_eq_some hleast
    simp only [replaceQuestionable, hleast, Except.ok.injEq, Prod.mk.injEq] at h
    obtain ⟨rfl, rfl⟩ := h
    exact ⟨slotChange_exchange hslots p now, by simpa using hquest⟩

theorem replaceQuestionable_error {b : Bucket} {p q : Peer} {now : Time}
    (h : b.replaceQuestionable p now = .error q) :
    q = p ∧ ∀ x ∈ b.peers, x.status now ≠ .questionable := by
  rcases hleast : Slots.leastActive? (fun q => q.status now = .questionable) b.slots
    with _ | ⟨i, old⟩
  · simp only [replaceQuestionable, hleast, Except.error.injEq] at h
    refine ⟨h.symm, ?_⟩
    intro x hx
    simpa using Slots.leastActive?_eq_none hleast x hx
  · simp [replaceQuestionable, hleast] at h

/-! ### Removing and editing -/

theorem remove?_eq_some {b b' : Bucket} {id : NodeId} {old : Peer}
    (h : b.remove? id = some (old, b')) : SlotChange b (some old) none b' ∧ old.id = id := by
  rcases hfirst : Slots.first? (fun q => q.id = id) b.slots with _ | ⟨i, q⟩
  · simp [remove?, hfirst] at h
  · obtain ⟨before, after, hslots, rfl, hid, -⟩ := Slots.first?_eq_some hfirst
    simp only [remove?, hfirst, Option.some.injEq, Prod.mk.injEq] at h
    obtain ⟨rfl, rfl⟩ := h
    refine ⟨slotChange_of_set hslots ?_ ?_ ?_, by simpa using hid⟩
    · rfl
    · rfl
    · -- the peer that leaves was counted
      intro hcounted
      have hpos := hcounted.size_pos (mem_peers_of_slots hslots)
      change b.size - 1 + 1 = b.size + 0
      omega

theorem edit?_eq_some {b b' : Bucket} {id : NodeId} {f : Peer → Peer} {p : Peer}
    (h : b.edit? id f = some (p, b')) :
    ∃ old, SlotChange b (some old) (some (f old)) b' ∧ old.id = id ∧ p = f old := by
  rcases hfirst : Slots.first? (fun q => q.id = id) b.slots with _ | ⟨i, q⟩
  · simp [edit?, hfirst] at h
  · obtain ⟨before, after, hslots, rfl, hid, -⟩ := Slots.first?_eq_some hfirst
    simp only [edit?, hfirst, Option.some.injEq, Prod.mk.injEq] at h
    obtain ⟨rfl, rfl⟩ := h
    refine ⟨q, slotChange_of_set hslots ?_ ?_ ?_, by simpa using hid, rfl⟩
    · rfl
    · rfl
    · intro _
      rfl

/-- Removing and editing fail together, when the identifier is absent. -/
theorem remove?_eq_none {b : Bucket} {id : NodeId} (h : b.remove? id = none) :
    ∀ p ∈ b.peers, p.id ≠ id := by
  rcases hfirst : Slots.first? (fun q => q.id = id) b.slots with _ | ⟨i, q⟩
  · intro p hp
    simpa using Slots.first?_eq_none hfirst p hp
  · simp [remove?, hfirst] at h

theorem edit?_eq_none {b : Bucket} {id : NodeId} {f : Peer → Peer} (h : b.edit? id f = none) :
    ∀ p ∈ b.peers, p.id ≠ id := by
  rcases hfirst : Slots.first? (fun q => q.id = id) b.slots with _ | ⟨i, q⟩
  · intro p hp
    simpa using Slots.first?_eq_none hfirst p hp
  · simp [edit?, hfirst] at h

/-! ### Sweeping -/

theorem counted_sweep {σ : Type} (visit : σ → Peer → σ × Peer) (state : σ) {b : Bucket}
    (h : b.Counted) : (b.sweep visit state).2.Counted := by
  unfold Counted at h ⊢
  simp only [sweep]
  rw [Slots.occupied_sweep]
  exact h

theorem map_peers_sweep {σ α : Type} (visit : σ → Peer → σ × Peer) (f : Peer → α)
    (hvisit : ∀ s p, f (visit s p).2 = f p) (state : σ) (b : Bucket) :
    (b.sweep visit state).2.peers.map f = b.peers.map f :=
  Slots.map_occupants_sweep visit f hvisit state b.slots

/-! ### Draining -/

theorem drain_of_full {leaves : Peer → Bool} {now : Time} {dest : Bucket}
    (hfull : dest.isFull = true) (row : Slots) :
    drain leaves now row dest = ⟨row, dest, 0⟩ := by
  induction row with
  | nil => rfl
  | cons slot rest ih =>
    cases slot with
    | none => rw [drain, ih, Drained.keep]
    | some p => rw [drain, if_pos hfull]

theorem drain_of_leaves {leaves : Peer → Bool} {now : Time} {p : Peer} {rest : Slots}
    {dest dest' : Bucket} (hfull : ¬ dest.isFull = true) (hleaves : leaves p = true)
    (hadd : dest.add p now = .ok dest') :
    drain leaves now (some p :: rest) dest = (drain leaves now rest dest').leave := by
  rw [drain, if_neg hfull, if_pos hleaves, hadd]

theorem drain_of_stays {leaves : Peer → Bool} {now : Time} {p : Peer} {rest : Slots}
    {dest : Bucket} (hfull : ¬ dest.isFull = true) (hstays : leaves p = false) :
    drain leaves now (some p :: rest) dest = (drain leaves now rest dest).keep (some p) := by
  rw [drain, if_neg hfull, if_neg (by simp [hstays])]

/-- A slot becomes free for each peer that is moved. -/
theorem occupied_drain (leaves : Peer → Bool) (now : Time) (row : Slots) (dest : Bucket) :
    Slots.occupied (drain leaves now row dest).row + (drain leaves now row dest).moved =
      Slots.occupied row := by
  fun_induction drain leaves now row dest with
  | case1 => rfl
  | case2 rest dest ih => simpa [Drained.keep] using ih
  | case3 => rfl
  | case4 p rest dest hroom hleaves dest' hadd ih =>
    simp only [Drained.leave, Slots.occupied_cons_none, Slots.occupied_cons_some]
    omega
  | case5 => rfl
  | case6 p rest dest hroom hstays ih =>
    simp only [Drained.keep, Slots.occupied_cons_some]
    omega

theorem Counted.drain_dest {dest : Bucket} (h : dest.Counted) (leaves : Peer → Bool) (now : Time)
    (row : Slots) : (drain leaves now row dest).dest.Counted := by
  fun_induction drain leaves now row dest with
  | case1 => exact h
  | case2 rest dest ih => exact ih h
  | case3 => exact h
  | case4 p rest dest hroom hleaves dest' hadd ih => exact ih ((add_ok hadd).counted h)
  | case5 => exact h
  | case6 p rest dest hroom hstays ih => exact ih h

/-- The source counts down by as many peers as have left it. -/
theorem Counted.migrate_source {source : Bucket} (h : source.Counted) (dest : Bucket)
    (leaves : Peer → Bool) (now : Time) : (source.migrate dest leaves now).source.Counted := by
  have hdrain := occupied_drain leaves now source.slots dest
  have hsize : source.size = Slots.occupied source.slots := h
  exact Nat.sub_eq_of_eq_add (hsize.trans hdrain.symm)

/-! ### Draining into an empty bucket -/

def packed (ps : List Peer) (free : Nat) : Slots :=
  ps.map some ++ List.replicate free none

theorem occupants_packed (ps : List Peer) (free : Nat) :
    Slots.occupants (packed ps free) = ps := by
  simp [packed]

theorem firstFree?_packed (ps : List Peer) (free : Nat) :
    Slots.firstFree? (packed ps (free + 1)) = some ps.length := by
  induction ps with
  | nil => rfl
  | cons p ps ih => simpa [packed, Slots.firstFree?] using ih

theorem set_packed (ps : List Peer) (free : Nat) (p : Peer) :
    (packed ps (free + 1)).set ps.length (some p) = packed (ps ++ [p]) free := by
  simp [packed, List.replicate_succ]

/-- A counted bucket whose peers are the given ones, packed to the front. -/
structure Packed (b : Bucket) (ps : List Peer) (free : Nat) : Prop where
  slots_eq : b.slots = packed ps free
  counted : b.Counted

theorem Packed.length_eq {b : Bucket} {ps : List Peer} {free : Nat} (h : b.Packed ps free) :
    ps.length + free = 8 := by
  have hlen := b.length_slots
  rw [h.slots_eq] at hlen
  simpa [packed] using hlen

theorem Packed.peers_eq {b : Bucket} {ps : List Peer} {free : Nat} (h : b.Packed ps free) :
    b.peers = ps := by
  rw [peers, h.slots_eq, occupants_packed]

theorem packed_empty (i : Nat) : (empty i).Packed [] 8 := ⟨rfl, counted_empty i⟩

/-- A packed bucket with room takes a peer behind the others. -/
theorem Packed.add {b : Bucket} {ps : List Peer} {free : Nat} (h : b.Packed ps (free + 1))
    (p : Peer) (now : Time) :
    ∃ b', b.add p now = .ok b' ∧ b'.Packed (ps ++ [p]) free ∧ b'.index = b.index := by
  have hlt : b.peers.length < 8 := by
    have := h.length_eq
    rw [h.peers_eq]
    omega
  obtain ⟨b', hb'⟩ := exists_add hlt p now
  have hslots : b'.slots = packed (ps ++ [p]) free := by
    simp only [Bucket.add, h.slots_eq, firstFree?_packed, Except.ok.injEq] at hb'
    rw [← hb']
    simp only [setSlot, h.slots_eq]
    exact set_packed ps free p
  exact ⟨b', hb', ⟨hslots, (add_ok hb').counted h.counted⟩, (add_ok hb').index_eq⟩

theorem Packed.isFull_iff {b : Bucket} {ps : List Peer} {free : Nat} (h : b.Packed ps free) :
    b.isFull = true ↔ free = 0 := by
  have hlen := h.length_eq
  rw [h.counted.isFull_iff, h.peers_eq]
  omega

/-- With room for everyone who leaves, the loop goes through the whole row: those
    who leave follow the peers already there, and the others keep their slots. -/
theorem drain_packed (leaves : Peer → Bool) (now : Time) (row : Slots) (dest : Bucket)
    (ps : List Peer) (free : Nat) (hdest : dest.Packed ps free)
    (hroom : ((Slots.occupants row).filter leaves).length ≤ free) :
    (drain leaves now row dest).row = Slots.vacate leaves row ∧
      (drain leaves now row dest).dest.Packed (ps ++ (Slots.occupants row).filter leaves)
        (free - ((Slots.occupants row).filter leaves).length) ∧
      (drain leaves now row dest).dest.index = dest.index ∧
      (drain leaves now row dest).moved = ((Slots.occupants row).filter leaves).length := by
  induction row generalizing dest ps free with
  | nil => exact ⟨rfl, by simpa [drain] using hdest, rfl, rfl⟩
  | cons slot rest ih =>
    cases slot with
    | none =>
      obtain ⟨hrow, hdest', hindex, hmoved⟩ := ih dest ps free hdest hroom
      exact ⟨congrArg (none :: ·) hrow, hdest', hindex, hmoved⟩
    | some p =>
      by_cases hfull : dest.isFull = true
      · -- the loop stops, and there is nobody left to move
        obtain rfl := hdest.isFull_iff.mp hfull
        have hnone := List.length_eq_zero_iff.mp (Nat.le_zero.mp hroom)
        have hstay : ∀ q ∈ Slots.occupants (some p :: rest), leaves q = false := by
          simpa using List.filter_eq_nil_iff.mp hnone
        rw [drain_of_full hfull, hnone, Slots.vacate_of_no_leaver hstay, List.append_nil]
        exact ⟨rfl, hdest, rfl, rfl⟩
      · rcases hleaves : leaves p with _ | _
        · rw [Slots.occupants_cons_some, List.filter_cons_of_neg (by simp [hleaves])] at hroom ⊢
          obtain ⟨hrow, hpacked, hindex, hmoved⟩ := ih dest ps free hdest hroom
          rw [drain_of_stays hfull hleaves, Slots.vacate_cons_of_stays hleaves]
          exact ⟨congrArg (some p :: ·) hrow, hpacked, hindex, hmoved⟩
        · obtain ⟨room, rfl⟩ : ∃ room, free = room + 1 := by
            apply Nat.exists_eq_succ_of_ne_zero
            intro hzero
            exact hfull (hdest.isFull_iff.mpr hzero)
          obtain ⟨dest', hadd, hdest', hindex⟩ := hdest.add p now
          rw [Slots.occupants_cons_some, List.filter_cons_of_pos hleaves,
            List.length_cons] at hroom ⊢
          obtain ⟨hrow, hpacked, hindex', hmoved⟩ :=
            ih dest' (ps ++ [p]) room hdest' (by omega)
          rw [drain_of_leaves hfull hleaves hadd, Slots.vacate_cons_of_leaves hleaves]
          refine ⟨congrArg (none :: ·) hrow, ?_, hindex'.trans hindex, ?_⟩
          · rw [List.append_cons, Nat.add_sub_add_right]
            exact hpacked
          · exact congrArg (· + 1) hmoved

/-- A migration to an empty bucket moves exactly those who pass the test, in their
    order, and leaves all others in their slots. -/
theorem migrate_empty (source : Bucket) (i : Nat) (leaves : Peer → Bool) (now : Time) :
    let m := source.migrate (empty i) leaves now
    m.source.index = source.index ∧ m.source.slots = Slots.vacate leaves source.slots ∧
      (source.Counted → m.source.Counted) ∧ m.dest.index = i ∧
      m.dest.Packed (source.peers.filter leaves) (8 - (source.peers.filter leaves).length) ∧
      m.moved = (source.peers.filter leaves).length := by
  have hroom : (source.peers.filter leaves).length ≤ 8 :=
    Nat.le_trans (List.length_filter_le leaves source.peers) (length_peers_le source)
  obtain ⟨hrow, hpacked, hindex, hmoved⟩ :=
    drain_packed leaves now source.slots (empty i) [] 8 (packed_empty i) hroom
  exact ⟨rfl, hrow, fun hcounted => hcounted.migrate_source (empty i) leaves now, hindex, hpacked,
    hmoved⟩

end Kademlia.Bucket
