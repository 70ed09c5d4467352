/-
  Kademlia/Bucket/Slots.lean
  ==========================
  **Rows of slots, each empty or holding one peer.**

  A bucket keeps its peers in a row of slots, and a peer stays in its slot for as
  long as it is in the bucket.  Slots are therefore not contiguous: the row is
  searched for the first one that fits, and two peers that are equally good
  choices are told apart by the order of their slots.

  The searches give the number of the slot together with its occupant, so that
  what is found need not be looked up again.
-/
import Kademlia.Peer

namespace Kademlia

/-- A row of slots. -/
abbrev Slots := List (Option Peer)

namespace Slots

/-! ### Searches -/

def occupants (row : Slots) : List Peer :=
  row.filterMap fun slot => slot

def firstFree? : Slots → Option Nat
  | [] => none
  | none :: _ => some 0
  | some _ :: rest => (firstFree? rest).map (· + 1)

/-- The first slot whose peer passes a test, with that peer. -/
def first? (test : Peer → Bool) : Slots → Option (Nat × Peer)
  | [] => none
  | none :: rest => (first? test rest).map fun (i, p) => (i + 1, p)
  | some p :: rest =>
    if test p then some (0, p) else (first? test rest).map fun (i, q) => (i + 1, q)

/-- Whether one activity lies strictly before another.  No activity at all lies
    before every time. -/
def earlier : Option Time → Option Time → Bool
  | none, some _ => true
  | some a, some b => a < b
  | _, none => false

/-- The slot of the least recently active peer among those that pass a test, with
    that peer.  Of several such peers the first is taken. -/
def leastActive? (test : Peer → Bool) : Slots → Option (Nat × Peer)
  | [] => none
  | none :: rest => (leastActive? test rest).map fun (i, p) => (i + 1, p)
  | some p :: rest =>
    match (leastActive? test rest).map fun (i, q) => (i + 1, q) with
    | none => if test p then some (0, p) else none
    | some (i, q) =>
      if test p && !earlier q.lastActivity p.lastActivity then some (0, p) else some (i, q)

/-! ### Visits -/

/-- Visits the peers of a row in slot order.  The visitor sees the state that the
    visits before it left, and puts a peer of its choice into the slot. -/
def sweep {σ : Type} (visit : σ → Peer → σ × Peer) : σ → Slots → σ × Slots
  | state, [] => (state, [])
  | state, none :: rest =>
    let swept := sweep visit state rest
    (swept.1, none :: swept.2)
  | state, some p :: rest =>
    let visited := visit state p
    let swept := sweep visit visited.1 rest
    (swept.1, some visited.2 :: swept.2)

theorem length_sweep {σ : Type} (visit : σ → Peer → σ × Peer) (state : σ) (row : Slots) :
    (sweep visit state row).2.length = row.length := by
  induction row generalizing state with
  | nil => rfl
  | cons slot rest ih => cases slot <;> simp [sweep, ih]

end Slots

end Kademlia
