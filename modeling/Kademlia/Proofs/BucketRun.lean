/-
  Kademlia/Proofs/BucketRun.lean
  ==============================
  **A bucket on its own.**

  A table asks a bucket only for what makes sense in the table.  A bucket that is used on its
  own may be asked for anything: to take a peer that it already has, to give a slot away while
  others are free, to remove somebody who is not there.

  `Handled` says for each request how it can end and which slot is different afterwards; there
  is never more than one.  Identifiers may be stored several times, so that lookups, edits and
  removals are all about the lowest slot with the identifier.  The counter is not mentioned in
  any of this.  That it is right after every request (`counted_respond`) is what makes a
  bucket full exactly if it has no free slot, and lets its checks hold (`checkedRun_empty`).
-/
import Kademlia.Proofs.Eviction
import Kademlia.Proofs.Faultless

namespace Kademlia

/-! ### Slots -/

namespace Slots

variable {row : Slots} {j : Nat} {p : Peer}

/-- Slot `j` is free, and no lower one is. -/
structure LowestFree (row : Slots) (j : Nat) : Prop where
  free : row[j]? = some none
  lowest : ∀ k < j, row[k]? ≠ some none

/-- Slot `j` holds `p`, which fits, and nobody in a lower slot does. -/
structure Foremost (fits : Peer → Prop) (row : Slots) (j : Nat) (p : Peer) : Prop where
  occupies : row[j]? = some (some p)
  fitting : fits p
  lowest : ∀ k q, row[k]? = some (some q) → fits q → j ≤ k

theorem Foremost.unique {fits : Peer → Prop} {k : Nat} {q : Peer} (h : Foremost fits row j p)
    (h' : Foremost fits row k q) : p = q := by
  have hle : j ≤ k := h.lowest k q h'.occupies h'.fitting
  have hge : k ≤ j := h'.lowest j p h.occupies h.fitting
  obtain rfl : j = k := Nat.le_antisymm hle hge
  simpa using h.occupies.symm.trans h'.occupies

theorem foremost_of_first? {fits : Peer → Prop} [DecidablePred fits]
    (h : first? (fun q => decide (fits q)) row = some (j, p)) : Foremost fits row j p := by
  obtain ⟨hplace, hfits, hlowest⟩ := first?_place h
  refine ⟨hplace, of_decide_eq_true hfits, ?_⟩
  intro k q hk hq
  exact hlowest k q hk (decide_eq_true hq)

theorem occupied_eq_length_iff : occupied row = row.length ↔ none ∉ row := by
  rw [occupied, List.countP_eq_length]
  constructor
  · intro h hnone
    exact Bool.false_ne_true (h none hnone)
  · intro h slot hslot
    cases slot with
    | none => exact absurd hslot h
    | some p => rfl

end Slots

open Checked

namespace Bucket

variable {b b' : Bucket} {p : Peer} {now : Time} {id : NodeId}

theorem Counted.isFull_iff_no_free (h : b.Counted) : b.isFull = true ↔ none ∉ b.slots := by
  rw [h.isFull_iff, length_peers, ← b.length_slots, Slots.occupied_eq_length_iff]

/-- A lookup finds who is in the lowest slot with the identifier. -/
theorem get?_eq_some_iff : b.get? id = some p ↔ ∃ j, Slots.Foremost (·.id = id) b.slots j p := by
  have hsearch : (Slots.first? (fun q => decide (q.id = id)) b.slots).map Prod.snd = b.get? id :=
    Slots.map_snd_first? _ b.slots
  rw [← hsearch]
  constructor
  · intro h
    obtain ⟨⟨j, q⟩, hfirst, rfl⟩ := Option.map_eq_some_iff.mp h
    exact ⟨j, Slots.foremost_of_first? hfirst⟩
  · rintro ⟨j, hp⟩
    rcases hfirst : Slots.first? (fun q => decide (q.id = id)) b.slots with _ | ⟨k, q⟩
    · have hmem : p ∈ b.peers := Slots.mem_occupants.mpr (List.mem_of_getElem? hp.occupies)
      have hfails := Slots.first?_eq_none hfirst p hmem
      exact absurd hp.fitting (of_decide_eq_false hfails)
    · rw [Option.map_some, hp.unique (Slots.foremost_of_first? hfirst)]

/-! ### Requests -/

/-- What a bucket can be asked for.  An edit may do anything to the peer it gets hold of. -/
inductive Request where
  | add (peer : Peer) (now : Time)
  | replaceBad (candidate : Peer) (now : Time)
  | replaceQuestionable (candidate : Peer) (now : Time)
  | remove (id : NodeId)
  | edit (id : NodeId) (f : Peer → Peer)

inductive Response where
  | added
  | refused (error : BucketFull)
  | replaced (displaced : Peer)
  | rejected (candidate : Peer)
  | removed (peer : Option Peer)
  | edited (peer : Option Peer)
deriving DecidableEq, Repr

/-! What comes of an operation is the response, and the bucket to go on with. -/

def settleAdd (b : Bucket) : Except BucketFull Bucket → Response × Bucket
  | .ok b' => (.added, b')
  | .error e => (.refused e, b)

def settleReplace (b : Bucket) : Except Peer (Peer × Bucket) → Response × Bucket
  | .ok (displaced, b') => (.replaced displaced, b')
  | .error candidate => (.rejected candidate, b)

def settleRemove (b : Bucket) : Option (Peer × Bucket) → Response × Bucket
  | some (p, b') => (.removed (some p), b')
  | none => (.removed none, b)

def settleEdit (b : Bucket) : Option (Peer × Bucket) → Response × Bucket
  | some (p, b') => (.edited (some p), b')
  | none => (.edited none, b)

def respond (b : Bucket) : Request → Response × Bucket
  | .add peer now => b.settleAdd (b.add peer now)
  | .replaceBad candidate now => b.settleReplace (b.replaceBad candidate now)
  | .replaceQuestionable candidate now => b.settleReplace (b.replaceQuestionable candidate now)
  | .remove id => b.settleRemove (b.remove? id)
  | .edit id f => b.settleEdit (b.edit? id f)

/-- An edit has nothing to check. -/
def checkedRespond (b : Bucket) : Request → Checked (Response × Bucket)
  | .add peer now => do return b.settleAdd (← b.checkedAdd peer now)
  | .replaceBad candidate now => do return b.settleReplace (← b.checkedReplaceBad candidate now)
  | .replaceQuestionable candidate now => do
    return b.settleReplace (← b.checkedReplaceQuestionable candidate now)
  | .remove id => do return b.settleRemove (← b.checkedRemove? id)
  | .edit id f => return b.settleEdit (b.edit? id f)

def run (b : Bucket) : List Request → List Response × Bucket
  | [] => ([], b)
  | request :: rest =>
    let first := b.respond request
    let later := first.2.run rest
    (first.1 :: later.1, later.2)

def checkedRun (b : Bucket) : List Request → Checked (List Response × Bucket)
  | [] => return ([], b)
  | request :: rest => do
    let first ← b.checkedRespond request
    let later ← checkedRun first.2 rest
    return (first.1 :: later.1, later.2)

/-! ### The counter -/

theorem counted_respond (h : b.Counted) (request : Request) : (b.respond request).2.Counted := by
  cases request with
  | add p now =>
    rw [respond]
    rcases hadd : b.add p now with e | b'
    · exact h
    · exact (add_ok hadd).counted h
  | replaceBad p now =>
    rw [respond]
    rcases hbad : b.replaceBad p now with q | ⟨old, b'⟩
    · exact h
    · exact (replaceBad_ok hbad).1.counted h
  | replaceQuestionable p now =>
    rw [respond]
    rcases hquest : b.replaceQuestionable p now with q | ⟨old, b'⟩
    · exact h
    · exact (replaceQuestionable_ok hquest).1.counted h
  | remove id =>
    rw [respond]
    rcases hremove : b.remove? id with _ | ⟨old, b'⟩
    · exact h
    · exact (remove?_eq_some hremove).1.counted h
  | edit id f =>
    rw [respond]
    rcases hedit : b.edit? id f with _ | ⟨q, b'⟩
    · exact h
    · obtain ⟨old, hchange, -⟩ := edit?_eq_some hedit
      exact hchange.counted h

theorem counted_run (h : b.Counted) (requests : List Request) : (b.run requests).2.Counted := by
  induction requests generalizing b with
  | nil => exact h
  | cons request rest ih => exact ih (counted_respond h request)

/-! ### The checks -/

theorem Counted.checkedRespond_eq (h : b.Counted) (request : Request) :
    b.checkedRespond request = .ok (b.respond request) := by
  cases request with
  | add p now =>
    rw [checkedRespond, h.checkedAdd_eq]
    rfl
  | replaceBad p now =>
    rw [checkedRespond, checkedReplaceBad_eq]
    rfl
  | replaceQuestionable p now =>
    rw [checkedRespond, checkedReplaceQuestionable_eq]
    rfl
  | remove id =>
    rw [checkedRespond, h.checkedRemove?_eq]
    rfl
  | edit id f => rfl

theorem Counted.checkedRun_eq (h : b.Counted) (requests : List Request) :
    b.checkedRun requests = .ok (b.run requests) := by
  induction requests generalizing b with
  | nil => rfl
  | cons request rest ih =>
    rw [checkedRun, h.checkedRespond_eq, ok_bind, ih (counted_respond h request)]
    rfl

theorem checkedRun_empty (index : Nat) (requests : List Request) :
    (empty index).checkedRun requests = .ok ((empty index).run requests) :=
  (counted_empty index).checkedRun_eq requests

/-! ### One request -/

/-- `b'` has `new` in slot `j` and is like `b` in all other slots; it was last changed at
    `time`. -/
structure Rewritten (b : Bucket) (j : Nat) (new : Option Peer) (time : Option Time)
    (b' : Bucket) : Prop where
  index_eq : b'.index = b.index
  here : b'.slots[j]? = some new
  elsewhere : ∀ k, k ≠ j → b'.slots[k]? = b.slots[k]?
  lastChanged_eq : b'.lastChanged = time

theorem rewritten_setSlot {j : Nat} {old : Option Peer} (hold : b.slots[j]? = some old)
    (new : Option Peer) (size : Nat) (time : Option Time) :
    b.Rewritten j new time { b.setSlot j new with size := size, lastChanged := time } where
  index_eq := rfl
  here := List.getElem?_set_self (List.getElem?_eq_some_iff.mp hold).1
  elsewhere := fun _ hk => List.getElem?_set_ne hk.symm
  lastChanged_eq := rfl

/-- How a request ends, and what the bucket has in its slots afterwards. -/
inductive Handled (b : Bucket) : Request → Response → Bucket → Prop where
  /-- There is room, and the peer goes into the lowest free slot. -/
  | added {p : Peer} {now : Time} {j : Nat} {b' : Bucket} (hroom : b.isFull = false)
      (hfree : Slots.LowestFree b.slots j) (hb' : b.Rewritten j (some p) (some now) b') :
      Handled b (.add p now) .added b'
  /-- The bucket is full, and the very peer is handed back. -/
  | refused {p : Peer} {now : Time} (hfull : b.isFull = true) :
      Handled b (.add p now) (.refused ⟨p⟩) b
  | badReplaced {p e : Peer} {now : Time} {j : Nat} {b' : Bucket}
      (he : Slots.Foremost (fun q => q.status now = .bad) b.slots j e)
      (hb' : b.Rewritten j (some p) (some now) b') :
      Handled b (.replaceBad p now) (.replaced e) b'
  | nobodyBad {p : Peer} {now : Time} (hnobody : ∀ q ∈ b.peers, q.status now ≠ .bad) :
      Handled b (.replaceBad p now) (.rejected p) b
  | questionableReplaced {p e : Peer} {now : Time} {j : Nat} {b' : Bucket}
      (hplace : b.slots[j]? = some (some e)) (hstatus : e.status now = .questionable)
      (hleast : Slots.Least (fun q => q.status now = .questionable) b.slots j e)
      (hb' : b.Rewritten j (some p) (some now) b') :
      Handled b (.replaceQuestionable p now) (.replaced e) b'
  | nobodyQuestionable {p : Peer} {now : Time}
      (hnobody : ∀ q ∈ b.peers, q.status now ≠ .questionable) :
      Handled b (.replaceQuestionable p now) (.rejected p) b
  /-- The lowest slot with the identifier is empty, and the time is as it was. -/
  | removed {id : NodeId} {e : Peer} {j : Nat} {b' : Bucket}
      (he : Slots.Foremost (·.id = id) b.slots j e)
      (hb' : b.Rewritten j none b.lastChanged b') :
      Handled b (.remove id) (.removed (some e)) b'
  | nobodyRemoved {id : NodeId} (hnobody : ∀ q ∈ b.peers, q.id ≠ id) :
      Handled b (.remove id) (.removed none) b
  | edited {id : NodeId} {f : Peer → Peer} {e : Peer} {j : Nat} {b' : Bucket}
      (he : Slots.Foremost (·.id = id) b.slots j e)
      (hb' : b.Rewritten j (some (f e)) b.lastChanged b') :
      Handled b (.edit id f) (.edited (some (f e))) b'
  | nobodyEdited {id : NodeId} {f : Peer → Peer} (hnobody : ∀ q ∈ b.peers, q.id ≠ id) :
      Handled b (.edit id f) (.edited none) b

theorem Counted.handled_add (h : b.Counted) (p : Peer) (now : Time) :
    b.Handled (.add p now) (b.respond (.add p now)).1 (b.respond (.add p now)).2 := by
  rcases hfree : Slots.firstFree? b.slots with _ | j
  · have hadd : b.add p now = .error ⟨p⟩ := by rw [add, hfree]
    have hfull : b.isFull = true := h.isFull_iff.mpr (add_error hadd)
    rw [respond, hadd]
    exact .refused hfull
  · obtain ⟨hplace, hlowest⟩ := Slots.firstFree?_place hfree
    have hroom : ¬ b.isFull = true := fun hfull =>
      h.isFull_iff_no_free.mp hfull (List.mem_of_getElem? hplace)
    rw [respond, add, hfree]
    exact .added (Bool.eq_false_of_not_eq_true hroom) ⟨hplace, hlowest⟩
      (rewritten_setSlot hplace (some p) (b.size + 1) (some now))

theorem handled_replaceBad (b : Bucket) (p : Peer) (now : Time) :
    b.Handled (.replaceBad p now) (b.respond (.replaceBad p now)).1
      (b.respond (.replaceBad p now)).2 := by
  rcases hfirst : Slots.first? (fun q => decide (q.status now = .bad)) b.slots with _ | ⟨j, e⟩
  · rw [respond, replaceBad, hfirst]
    exact .nobodyBad fun q hq => of_decide_eq_false (Slots.first?_eq_none hfirst q hq)
  · have he : Slots.Foremost (fun q => q.status now = .bad) b.slots j e :=
      Slots.foremost_of_first? hfirst
    rw [respond, replaceBad, hfirst]
    exact .badReplaced he (rewritten_setSlot he.occupies (some p) b.size (some now))

theorem handled_replaceQuestionable (b : Bucket) (p : Peer) (now : Time) :
    b.Handled (.replaceQuestionable p now) (b.respond (.replaceQuestionable p now)).1
      (b.respond (.replaceQuestionable p now)).2 := by
  rcases hleast : Slots.leastActive? (fun q => decide (q.status now = .questionable)) b.slots
    with _ | ⟨j, e⟩
  · rw [respond, replaceQuestionable, hleast]
    exact .nobodyQuestionable fun q hq =>
      of_decide_eq_false (Slots.leastActive?_eq_none hleast q hq)
  · obtain ⟨before, after, hrow, rfl, hstatus⟩ := Slots.leastActive?_eq_some hleast
    have hplace : b.slots[before.length]? = some (some e) := by simp [hrow]
    rw [respond, replaceQuestionable, hleast]
    exact .questionableReplaced hplace (of_decide_eq_true hstatus)
      (Slots.leastActive?_least hleast) (rewritten_setSlot hplace (some p) b.size (some now))

theorem handled_remove (b : Bucket) (id : NodeId) :
    b.Handled (.remove id) (b.respond (.remove id)).1 (b.respond (.remove id)).2 := by
  rcases hfirst : Slots.first? (fun q => decide (q.id = id)) b.slots with _ | ⟨j, e⟩
  · rw [respond, remove?, hfirst]
    exact .nobodyRemoved fun q hq => of_decide_eq_false (Slots.first?_eq_none hfirst q hq)
  · have he : Slots.Foremost (·.id = id) b.slots j e := Slots.foremost_of_first? hfirst
    rw [respond, remove?, hfirst]
    exact .removed he (rewritten_setSlot he.occupies none (b.size - 1) b.lastChanged)

theorem handled_edit (b : Bucket) (id : NodeId) (f : Peer → Peer) :
    b.Handled (.edit id f) (b.respond (.edit id f)).1 (b.respond (.edit id f)).2 := by
  rcases hfirst : Slots.first? (fun q => decide (q.id = id)) b.slots with _ | ⟨j, e⟩
  · rw [respond, edit?, hfirst]
    exact .nobodyEdited fun q hq => of_decide_eq_false (Slots.first?_eq_none hfirst q hq)
  · have he : Slots.Foremost (·.id = id) b.slots j e := Slots.foremost_of_first? hfirst
    rw [respond, edit?, hfirst]
    exact .edited he (rewritten_setSlot he.occupies (some (f e)) b.size b.lastChanged)

theorem Counted.handled (h : b.Counted) (request : Request) :
    b.Handled request (b.respond request).1 (b.respond request).2 := by
  cases request with
  | add p now => exact h.handled_add p now
  | replaceBad p now => exact b.handled_replaceBad p now
  | replaceQuestionable p now => exact b.handled_replaceQuestionable p now
  | remove id => exact b.handled_remove id
  | edit id f => exact b.handled_edit id f

/-! ### Every run -/

/-- **A bucket on its own.**  Whatever an empty bucket has been asked for, none of its checks
    has failed.  It counts its occupied slots, is full exactly if no slot is free, finds who is
    in the lowest slot with an identifier, and handles whatever it is asked for next. -/
theorem run_handled (index : Nat) (requests : List Request) :
    (empty index).checkedRun requests = .ok ((empty index).run requests) ∧
      let b := ((empty index).run requests).2
      b.size = Slots.occupied b.slots ∧
        (b.isFull = true ↔ none ∉ b.slots) ∧
        (∀ id p, b.get? id = some p ↔ ∃ j, Slots.Foremost (·.id = id) b.slots j p) ∧
        ∀ request, b.Handled request (b.respond request).1 (b.respond request).2 := by
  have hcounted := counted_run (counted_empty index) requests
  exact ⟨checkedRun_empty index requests, hcounted, hcounted.isFull_iff_no_free,
    fun _ _ => get?_eq_some_iff, hcounted.handled⟩

-- of two peers with one identifier the lower one goes, and its slot is the first to be taken
example : ((empty 0).run [.add (neighbour 0) 0, .add (neighbour 0) 0,
    .edit (neighbour 0).id (·.markReply 3), .remove (neighbour 0).id,
    .add (neighbour 1) 4]).2.peers = [neighbour 1, neighbour 0] := by decide

end Bucket

end Kademlia
