/-
  Kademlia/Bucket.lean
  ====================
  **Buckets of at most eight peers.**

  A bucket holds the peers that share a certain number of leading bits with the
  local identifier, its `index`.  A new peer takes the first free slot.  When
  none is free it can take the slot of a bad peer, or of the questionable peer
  that has been quiet for longest; a good or an unknown peer is never displaced.

  The bucket counts its peers as they come and go, and remembers when a peer last
  arrived, was exchanged, or moved on to another bucket.  Removing a peer, or
  recording its replies and queries, does not count as a change.
-/
import Kademlia.Bucket.Slots
import Kademlia.NodeId.Text

namespace Kademlia

def bucketCapacity : Nat := 8

/-- A row of eight slots for the peers that share `index` leading bits with the
    local identifier. -/
@[ext]
structure Bucket where
  index : Nat
  size : Nat
  lastChanged : Option Time
  slots : Slots
  length_slots : slots.length = 8
deriving DecidableEq, Repr

/-- The refusal of a full bucket, with the peer that it has no room for. -/
structure BucketFull where
  peer : Peer
deriving DecidableEq, Repr

def BucketFull.message (e : BucketFull) : String :=
  "bucket is full, can't add " ++ e.peer.id.text

namespace Bucket

/-- A bucket without peers that has never changed. -/
def empty (index : Nat) : Bucket :=
  ⟨index, 0, none, List.replicate 8 none, rfl⟩

/-! ### Views -/

def peers (b : Bucket) : List Peer :=
  Slots.occupants b.slots

def isEmpty (b : Bucket) : Bool :=
  b.size == 0

/-- Whether a bucket counts as many peers as it has slots. -/
def isFull (b : Bucket) : Bool :=
  b.size == bucketCapacity

def get? (b : Bucket) (id : NodeId) : Option Peer :=
  b.peers.find? (·.id = id)

def contains (b : Bucket) (id : NodeId) : Bool :=
  b.peers.any (·.id = id)

/-! ### Changes to one slot -/

def setSlot (b : Bucket) (i : Nat) (slot : Option Peer) : Bucket :=
  { b with
    slots := b.slots.set i slot
    length_slots := by simp [b.length_slots] }

/-- Puts a peer into the first free slot.  Nothing asks whether the bucket holds a
    peer with the same identifier. -/
def add (b : Bucket) (peer : Peer) (now : Time) : Except BucketFull Bucket :=
  match Slots.firstFree? b.slots with
  | some i => .ok { b.setSlot i (some peer) with size := b.size + 1, lastChanged := some now }
  | none => .error ⟨peer⟩

/-- Puts a peer into a slot that another one gives up. -/
def exchange (b : Bucket) (i : Nat) (peer : Peer) (now : Time) : Bucket :=
  { b.setSlot i (some peer) with lastChanged := some now }

/-- Gives the slot of the first bad peer to the candidate.  The answer is the peer
    displaced and the new bucket, or the candidate if no peer is bad. -/
def replaceBad (b : Bucket) (candidate : Peer) (now : Time) : Except Peer (Peer × Bucket) :=
  match Slots.first? (fun p => p.status now = .bad) b.slots with
  | some (i, old) => .ok (old, b.exchange i candidate now)
  | none => .error candidate

/-- Gives the slot of the least recently active questionable peer to the
    candidate.  The answer is the peer displaced and the new bucket, or the
    candidate if no peer is questionable. -/
def replaceQuestionable (b : Bucket) (candidate : Peer) (now : Time) :
    Except Peer (Peer × Bucket) :=
  match Slots.leastActive? (fun p => p.status now = .questionable) b.slots with
  | some (i, old) => .ok (old, b.exchange i candidate now)
  | none => .error candidate

/-- Empties the first slot that holds an identifier, and gives the peer that was
    in it. -/
def remove? (b : Bucket) (id : NodeId) : Option (Peer × Bucket) :=
  match Slots.first? (fun p => p.id = id) b.slots with
  | some (i, old) => some (old, { b.setSlot i none with size := b.size - 1 })
  | none => none

/-- Edits the first peer with an identifier, and gives the peer as it is
    afterwards. -/
def edit? (b : Bucket) (id : NodeId) (f : Peer → Peer) : Option (Peer × Bucket) :=
  match Slots.first? (fun p => p.id = id) b.slots with
  | some (i, old) => some (f old, b.setSlot i (some (f old)))
  | none => none

/-! ### Changes to the whole row -/

/-- Visits every peer in slot order; the visitor threads a state and says what
    each slot holds afterwards. -/
def sweep {σ : Type} (visit : σ → Peer → σ × Peer) (state : σ) (b : Bucket) : σ × Bucket :=
  let result := Slots.sweep visit state b.slots
  (result.1, { b with
    slots := result.2
    length_slots := (Slots.length_sweep visit state b.slots).trans b.length_slots })

/-- What is left of a row, what became of the bucket that took the peers which left
    it, and how many those were. -/
@[ext]
structure Drained where
  row : Slots
  dest : Bucket
  moved : Nat

/-- The result for a row with one more slot in front, which is not drained. -/
def Drained.keep (slot : Option Peer) (d : Drained) : Drained :=
  ⟨slot :: d.row, d.dest, d.moved⟩

/-- The result for a row with one more slot in front, whose peer has left. -/
def Drained.leave (d : Drained) : Drained :=
  ⟨none :: d.row, d.dest, d.moved + 1⟩

/-- Moves the peers of a row that pass a test into a bucket, one after the other,
    until the bucket is full.

    A bucket whose count is right has room as long as it is not full.  Were an addition
    refused all the same, then an assertion would fail (`checkedDrain`); in a build
    without assertions the refused peer would be dropped and counted as moved.  Here
    the moves end and the peer stays where it was. -/
def drain (leaves : Peer → Bool) (now : Time) : Slots → Bucket → Drained
  | [], dest => ⟨[], dest, 0⟩
  | none :: rest, dest => (drain leaves now rest dest).keep none
  | some p :: rest, dest =>
    if dest.isFull then ⟨some p :: rest, dest, 0⟩
    else if leaves p then
      match dest.add p now with
      | .ok dest => (drain leaves now rest dest).leave
      | .error _ => ⟨some p :: rest, dest, 0⟩
    else (drain leaves now rest dest).keep (some p)

theorem length_drain (leaves : Peer → Bool) (now : Time) (row : Slots) (dest : Bucket) :
    (drain leaves now row dest).row.length = row.length := by
  fun_induction drain leaves now row dest <;> simp_all [Drained.keep, Drained.leave]

/-- The two buckets after a migration, and the number of peers that moved. -/
@[ext]
structure Migration where
  source : Bucket
  dest : Bucket
  moved : Nat

/-- Moves the peers that pass a test from one bucket to another.  The source counts
    as changed if at least one of its peers left. -/
def migrate (source dest : Bucket) (leaves : Peer → Bool) (now : Time) : Migration :=
  let drained := drain leaves now source.slots dest
  ⟨{ source with
      size := source.size - drained.moved
      lastChanged := if 0 < drained.moved then some now else source.lastChanged
      slots := drained.row
      length_slots := (length_drain leaves now source.slots dest).trans source.length_slots },
    drained.dest, drained.moved⟩

end Bucket

end Kademlia
