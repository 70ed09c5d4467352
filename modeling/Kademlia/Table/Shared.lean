/-
  Kademlia/Table/Shared.lean
  ==========================
  **Tables that several clients work on.**

  A client reaches a table through a handle.  Handles can be duplicated, and what
  one client does is seen through every handle on the same table.  Each operation
  has the table to itself, so what the clients do together is some sequence of
  whole operations.
-/
import Kademlia.Table.Persist

namespace Kademlia

/-- Tables, and the handles on them: handle number `h` leads to the table whose
    number is at place `h`. -/
structure SharedTables where
  tables : List Table
  handles : List Nat
deriving DecidableEq, Repr

namespace SharedTables

/-- One table with one handle on it, number zero. -/
def single (t : Table) : SharedTables :=
  ⟨[t], [0]⟩

def table? (s : SharedTables) (handle : Nat) : Option Table :=
  s.handles[handle]?.bind fun i => s.tables[i]?

/-- Puts a table behind a handle, for every handle that leads to the same place. -/
def put (s : SharedTables) (handle : Nat) (t : Table) : SharedTables :=
  match s.handles[handle]? with
  | some i => { s with tables := s.tables.set i t }
  | none => s

/-- Performs one operation on the table behind a handle, and gives its answer. -/
def perform {α : Type} (s : SharedTables) (handle : Nat) (operation : Table → Table.Update α) :
    Option (α × SharedTables) :=
  (s.table? handle).map fun t =>
    let update := operation t
    (update.answer, s.put handle update.table)

/-- Duplicates a handle, and gives the number of the new one. -/
def share? (s : SharedTables) (handle : Nat) : Option (Nat × SharedTables) :=
  s.handles[handle]?.map fun i => (s.handles.length, { s with handles := s.handles ++ [i] })

/-- Adds a table with a handle of its own, and gives the handle's number. -/
def adopt (s : SharedTables) (t : Table) : Nat × SharedTables :=
  (s.handles.length, ⟨s.tables ++ [t], s.handles ++ [s.tables.length]⟩)

end SharedTables

/-- A private table for a lookup of `target`, under the same local identifier. -/
def Table.seedSearch (t : Table) (target : NodeId) (clock : Nat → Time) :
    Table.Update (List Outcome) :=
  Table.seed t.localId t target clock

end Kademlia
