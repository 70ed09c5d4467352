/-
  Kademlia/Proofs/Run.lean
  ========================
  **Operations, runs, and the tables that can come about.**

  Whoever holds a table can insert and remove peers, record replies and queries,
  and get hold of a stored peer to move it to another address or to mark it
  (`Operation`).  A run performs one operation after the other and keeps a log of
  what was asked and what was answered.

  A table can be started in three ways: without peers, from the contacts of a
  snapshot, and from the peers of another table that are closest to a target.
  `Reachable` closes these under operations and under sweeps that edit the peers
  they visit, at any times and in any order.
-/
import Kademlia.Table.Directed
import Kademlia.Table.Persist
import Kademlia.Table.Shared
import Kademlia.Table.Sweep

namespace Kademlia

/-! ### Edits of a stored peer -/

/-- What can be done to a stored peer.  None of it changes the identifier. -/
inductive Edit where
  | setAddress (address : Address)
  | markReply (now : Time)
  | markQuery (now : Time)
deriving DecidableEq, Repr

def Edit.apply : Edit → Peer → Peer
  | .setAddress address, p => p.setAddress address
  | .markReply now, p => p.markReply now
  | .markQuery now, p => p.markQuery now

def Peer.editAll (p : Peer) (edits : List Edit) : Peer :=
  edits.foldl (fun p edit => edit.apply p) p

@[simp] theorem Edit.id_apply (edit : Edit) (p : Peer) : (edit.apply p).id = p.id := by
  cases edit with
  | setAddress address => exact p.setAddress_id address
  | markReply now => exact p.markReply_id now
  | markQuery now => exact p.markQuery_id now

@[simp] theorem Peer.id_editAll (p : Peer) (edits : List Edit) : (p.editAll edits).id = p.id := by
  induction edits generalizing p with
  | nil => rfl
  | cons edit rest ih =>
    rw [Peer.editAll, List.foldl_cons]
    exact (ih (edit.apply p)).trans (edit.id_apply p)

/-! ### Operations and their answers -/

/-- An operation on one peer.  The edits may depend on the peer that is found. -/
inductive Operation where
  | insert (peer : Peer) (now : Time)
  | remove (id : NodeId)
  | markReply (id : NodeId) (now : Time)
  | markQuery (id : NodeId) (now : Time)
  | edit (id : NodeId) (plan : Peer → List Edit)

inductive Answer where
  | inserted (outcome : Outcome)
  | removed (peer : Option Peer)
  | marked (found : Bool)
  | edited (peer : Option Peer)
deriving DecidableEq, Repr

namespace Table

def perform (t : Table) : Operation → Update Answer
  | .insert peer now =>
    let update := t.insert peer now
    ⟨.inserted update.answer, update.table, update.events⟩
  | .remove id =>
    match t.remove? id with
    | some (peer, t') => ⟨.removed (some peer), t', []⟩
    | none => ⟨.removed none, t, []⟩
  | .markReply id now =>
    let update := t.markReply id now
    ⟨.marked update.answer, update.table, update.events⟩
  | .markQuery id now =>
    let update := t.markQuery id now
    ⟨.marked update.answer, update.table, update.events⟩
  | .edit id plan =>
    match t.edit? id fun p => p.editAll (plan p) with
    | some (peer, t') => ⟨.edited (some peer), t', []⟩
    | none => ⟨.edited none, t, []⟩

/-- A sweep that edits the peers it visits.  The edits may depend on the peer and
    on a state that the visitor carries along. -/
def sweepEdits {σ : Type} (t : Table) (plan : σ → Peer → σ × List Edit) (state : σ) : Table :=
  (t.sweep (fun s p => ((plan s p).1, p.editAll (plan s p).2)) state).2

/-- The tables that can come about. -/
inductive Reachable : Table → Prop where
  | new (localId : NodeId) : Reachable (Table.new localId)
  | restore (localId : NodeId) (contacts : List Contact) (clock : Nat → Time) :
      Reachable (Table.restore localId contacts clock).table
  | seed (localId : NodeId) {source : Table} (target : NodeId) (clock : Nat → Time) :
      Reachable source → Reachable (Table.seed localId source target clock).table
  | perform {t : Table} (operation : Operation) :
      Reachable t → Reachable (t.perform operation).table
  | sweep {σ : Type} {t : Table} (plan : σ → Peer → σ × List Edit) (state : σ) :
      Reachable t → Reachable (t.sweepEdits plan state)

end Table

/-! ### Runs -/

/-- What was asked of a table, and what it answered. -/
structure Entry where
  operation : Operation
  answer : Answer

def Table.run (t : Table) : List Operation → List Entry × Table
  | [] => ([], t)
  | operation :: rest =>
    let update := t.perform operation
    let later := update.table.run rest
    (⟨operation, update.answer⟩ :: later.1, later.2)

/-! ### A table that has been split -/

/-- A peer that shares exactly `k` bits with the identifier zero. -/
def neighbour (k : Nat) : Peer :=
  Peer.new (NodeId.zero.flipBit k) (.v4 ⟨Bytes.fill 4 127, 6881⟩)

/-- Nine neighbours, each one deeper than the one before it, arrive one after the
    other.  The ninth finds the only bucket full, and the split moves seven of the
    eight others. -/
def neighbourhood : Table :=
  ((Table.new .zero).run ((List.range 9).map fun k => .insert (neighbour k) 0)).2

/-! ### Shared tables -/

namespace SharedTables

/-- What a client of a shared table does: it duplicates a handle, or performs an
    operation through one. -/
inductive Action where
  | share (handle : Nat)
  | perform (handle : Nat) (operation : Operation)

/-- Lets clients act one after the other.  Whatever goes through a handle that does
    not exist has no effect and leaves no entry in the log. -/
def act (s : SharedTables) : List Action → List Entry × SharedTables
  | [] => ([], s)
  | .share handle :: rest =>
    match s.share? handle with
    | some (_, s') => s'.act rest
    | none => s.act rest
  | .perform handle operation :: rest =>
    match s.perform handle fun t => t.perform operation with
    | some (answer, s') =>
      let later := s'.act rest
      (⟨operation, answer⟩ :: later.1, later.2)
    | none => s.act rest

end SharedTables

end Kademlia
