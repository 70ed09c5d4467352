/-
  Kademlia/Proofs/Checked.lean
  ============================
  **The operations with every check that can stop the program.**

  The definitions of the library are total: a subtraction stops at zero, a place past
  the end of a row reads as nothing, and an assertion leaves no trace.  A program with
  machine arithmetic and assertions is less forgiving.  It stops when an index is out
  of bounds, when a subtraction would go below zero, and when something that it takes
  for granted does not hold.

  Here every operation is written once more, in the order in which the program goes
  about it, with each of these checks in its place.  A check that fails ends the
  operation with a `Fault`.  Nothing is assumed about the table, so that on a table
  that is not in order the checks do fail; that they never do on one that can come
  about is the subject of `Kademlia.Proofs.Faultless`.
-/
import Kademlia.Proofs.Run
import Kademlia.Table.Refresh

namespace Kademlia

/-! ### Faults and checks -/

/-- A check that failed. -/
inductive Fault where
  /-- A place past the end of a row was read or written. -/
  | outOfBounds (index : Nat)
  /-- A number was to be taken from a smaller one. -/
  | underflow
  /-- A place or a length exceeds the width of an identifier. -/
  | range (error : RangeError)
  /-- A bucket with a free slot counts at least as many peers as it has slots. -/
  | countedFull
  /-- A bucket without a free slot does not count as many peers as it has slots. -/
  | countedFree
  /-- A slot that was chosen for an exchange is empty. -/
  | emptySlot (slot : Nat)
  /-- The destination of a migration refused a peer. -/
  | migrantRejected
  /-- The bucket at a place has another index. -/
  | misnumbered (place index : Nat)
  /-- A bucket that is not full refused a peer. -/
  | rejectedWithRoom (bucket : Nat)
  /-- A split would exceed the greatest number of buckets. -/
  | tooManyBuckets
deriving DecidableEq, Repr

/-- The result of a computation, or the check that stopped it. -/
abbrev Checked (α : Type) := Except Fault α

namespace Checked

def require (p : Prop) [Decidable p] (fault : Fault) : Checked Unit :=
  if p then .ok () else .error fault

def sub (a b : Nat) : Checked Nat :=
  if b ≤ a then .ok (a - b) else .error .underflow

def lookup {α : Type} (row : List α) (i : Nat) : Checked α :=
  match row[i]? with
  | some a => .ok a
  | none => .error (.outOfBounds i)

theorem bind_eq_ok {α β : Type} {x : Checked α} {f : α → Checked β} {b : β}
    (h : x >>= f = .ok b) : ∃ a, x = .ok a ∧ f a = .ok b := by
  cases x with
  | error fault => cases h
  | ok a => exact ⟨a, rfl, h⟩

end Checked

open Checked

/-! ### Identifiers -/

namespace NodeId

/-- The place must exist, and the byte that holds it must be one of the twenty. -/
def checkedFlipBit (id : NodeId) (i : Nat) : Checked NodeId := do
  let flipped ← (id.flipBit? i).mapError .range
  let _ ← lookup id.toBytes (i / 8)
  return flipped

/-- The whole bytes are a slice of both identifiers; if bits are left, the byte after
    them is read in both. -/
def checkedOverwriteLeading (dst src : NodeId) (count : Nat) : Checked NodeId := do
  let result ← (dst.overwriteLeading? src count).mapError .range
  require (count / 8 ≤ src.toBytes.length) (.outOfBounds (count / 8))
  require (count / 8 ≤ dst.toBytes.length) (.outOfBounds (count / 8))
  if count % 8 ≠ 0 then
    let _ ← lookup src.toBytes (count / 8)
    let _ ← lookup dst.toBytes (count / 8)
    return result
  else
    return result

end NodeId

/-! ### Buckets -/

namespace Bucket

/-- The counter must agree with the search for a free slot. -/
def checkedAdd (b : Bucket) (peer : Peer) (now : Time) : Checked (Except BucketFull Bucket) :=
  match Slots.firstFree? b.slots with
  | some i => do
    require (b.size < bucketCapacity) .countedFull
    return .ok { b.setSlot i (some peer) with size := b.size + 1, lastChanged := some now }
  | none => do
    require (b.size = bucketCapacity) .countedFree
    return .error ⟨peer⟩

/-- The slot must exist and hold a peer, which is given back. -/
def checkedExchange (b : Bucket) (i : Nat) (peer : Peer) (now : Time) :
    Checked (Peer × Bucket) := do
  match ← lookup b.slots i with
  | some old => return (old, b.exchange i peer now)
  | none => .error (.emptySlot i)

/-- Gives the slot that a search has found to the candidate. -/
def checkedReplace (b : Bucket) (found : Option (Nat × Peer)) (candidate : Peer) (now : Time) :
    Checked (Except Peer (Peer × Bucket)) :=
  match found with
  | some (i, _) => do return .ok (← b.checkedExchange i candidate now)
  | none => return .error candidate

def checkedReplaceBad (b : Bucket) (candidate : Peer) (now : Time) :
    Checked (Except Peer (Peer × Bucket)) :=
  b.checkedReplace (Slots.first? (fun p => p.status now = .bad) b.slots) candidate now

def checkedReplaceQuestionable (b : Bucket) (candidate : Peer) (now : Time) :
    Checked (Except Peer (Peer × Bucket)) :=
  b.checkedReplace (Slots.leastActive? (fun p => p.status now = .questionable) b.slots)
    candidate now

def checkedRemove? (b : Bucket) (id : NodeId) : Checked (Option (Peer × Bucket)) :=
  match Slots.first? (fun p => p.id = id) b.slots with
  | some (i, old) => do
    let size ← sub b.size 1
    return some (old, { b.setSlot i none with size := size })
  | none => return none

/-- Moves peers as `drain` does, and takes each of them from the number that the source
    counts.  The answer is what the source counts afterwards, and what became of the
    row. -/
def checkedDrain (leaves : Peer → Bool) (now : Time) :
    Slots → Nat → Bucket → Checked (Nat × Drained)
  | [], size, dest => return (size, ⟨[], dest, 0⟩)
  | slot :: rest, size, dest =>
    if dest.isFull then return (size, ⟨slot :: rest, dest, 0⟩)
    else
      match slot with
      | none => do
        let (size, drained) ← checkedDrain leaves now rest size dest
        return (size, drained.keep none)
      | some p =>
        if leaves p then do
          let size ← sub size 1
          match ← dest.checkedAdd p now with
          | .ok dest =>
            let (size, drained) ← checkedDrain leaves now rest size dest
            return (size, drained.leave)
          | .error _ => .error .migrantRejected
        else do
          let (size, drained) ← checkedDrain leaves now rest size dest
          return (size, drained.keep (some p))

theorem length_checkedDrain {leaves : Peer → Bool} {now : Time} {row : Slots} {size n : Nat}
    {dest : Bucket} {d : Drained} (h : checkedDrain leaves now row size dest = .ok (n, d)) :
    d.row.length = row.length := by
  induction row generalizing size dest n d with
  | nil =>
    cases h
    rfl
  | cons slot rest ih =>
    unfold checkedDrain at h
    dsimp only at h
    by_cases hfull : dest.isFull = true
    · rw [if_pos hfull] at h
      cases h
      rfl
    · rw [if_neg hfull] at h
      cases slot with
      | none =>
        obtain ⟨⟨m, e⟩, hrest, heq⟩ := bind_eq_ok h
        cases heq
        exact congrArg (· + 1) (ih hrest)
      | some p =>
        by_cases hleaves : leaves p = true
        · simp only [if_pos hleaves] at h
          obtain ⟨m, -, h⟩ := bind_eq_ok h
          obtain ⟨added, -, h⟩ := bind_eq_ok h
          cases added with
          | error e => cases h
          | ok b =>
            obtain ⟨⟨m', e⟩, hrest, heq⟩ := bind_eq_ok h
            cases heq
            exact congrArg (· + 1) (ih hrest)
        · simp only [if_neg hleaves] at h
          obtain ⟨⟨m, e⟩, hrest, heq⟩ := bind_eq_ok h
          cases heq
          exact congrArg (· + 1) (ih hrest)

/-- Moves the peers that pass a test from one bucket to another. -/
def checkedMigrate (source dest : Bucket) (leaves : Peer → Bool) (now : Time) :
    Checked Migration :=
  match h : checkedDrain leaves now source.slots source.size dest with
  | .ok (size, drained) =>
    .ok ⟨{ source with
        size := size
        lastChanged := if 0 < drained.moved then some now else source.lastChanged
        slots := drained.row
        length_slots := (length_checkedDrain h).trans source.length_slots },
      drained.dest, drained.moved⟩
  | .error fault => .error fault

end Bucket

/-! ### Closest peers -/

namespace ClosestSet

/-- The place of the new entry must not be past the end of the entries.  If there are
    too many afterwards, the last one is dropped. -/
def checkedOffer (s : ClosestSet) (peer : Peer) : Checked (Bool × ClosestSet) :=
  let distance := peer.id.distance s.target
  let i := (s.entries.takeWhile (·.distance ≤ distance)).length
  if s.capacity ≤ i then return (false, s)
  else do
    require (i ≤ s.size) (.outOfBounds i)
    let entries := s.entries.insertIdx i ⟨peer, distance⟩
    return (true, { s with
      entries := if s.capacity < entries.length then entries.dropLast else entries })

def checkedExtend (s : ClosestSet) (peers : List Peer) : Checked ClosestSet :=
  peers.foldlM (fun s peer => do return (← s.checkedOffer peer).2) s

end ClosestSet

/-! ### Tables -/

namespace Table

/-- The last index is one less than the number of buckets, and the bucket at the place
    that is found must have that place as its index. -/
def checkedFindBucket (t : Table) (id : NodeId) : Checked Nat := do
  let last ← sub t.bucketCount 1
  let i := min (t.localId.sharedBits id) last
  let b ← lookup t.buckets i
  require (b.index = i) (.misnumbered i b.index)
  return i

/-- The bucket responsible for an identifier, with its place. -/
def checkedHome (t : Table) (id : NodeId) : Checked (Nat × Bucket) := do
  let i ← t.checkedFindBucket id
  return (i, ← lookup t.buckets i)

def checkedFind? (t : Table) (id : NodeId) : Checked (Option Peer) := do
  let (_, b) ← t.checkedHome id
  return b.get? id

def checkedEdit? (t : Table) (id : NodeId) (f : Peer → Peer) :
    Checked (Option (Peer × Table)) := do
  let (i, b) ← t.checkedHome id
  return (b.edit? id f).map fun (p, b) => (p, t.setBucket i b)

def checkedRemove? (t : Table) (id : NodeId) : Checked (Option (Peer × Table)) := do
  let (i, b) ← t.checkedHome id
  return (← b.checkedRemove? id).map fun (p, b) => (p, t.setBucket i b)

def checkedMarkReply (t : Table) (id : NodeId) (now : Time) : Checked (Update Bool) := do
  match ← t.checkedEdit? id (·.markReply now) with
  | some (_, t) => return ⟨true, t, []⟩
  | none => return ⟨false, t, [.replyFromUnknown id]⟩

def checkedMarkQuery (t : Table) (id : NodeId) (now : Time) : Checked (Update Bool) := do
  match ← t.checkedEdit? id (·.markQuery now) with
  | some (_, t) => return ⟨true, t, []⟩
  | none => return ⟨false, t, [.queryToUnknown id]⟩

/-- The occupants are looked at only if the candidate does not decide the question. -/
def checkedCanSplit (t : Table) (i : Nat) (candidate : NodeId) : Checked Bool :=
  if i + 1 ≠ t.bucketCount ∨ maxBuckets ≤ t.bucketCount then return false
  else if i < t.localId.sharedBits candidate then return true
  else do
    let b ← lookup t.buckets i
    return b.peers.any fun p => decide (i < t.localId.sharedBits p.id)

def checkedSplitLast (t : Table) (now : Time) : Checked (Update Nat) := do
  require (t.bucketCount < maxBuckets) .tooManyBuckets
  let old ← sub t.bucketCount 1
  let source ← lookup t.buckets old
  let migration ← source.checkedMigrate (Bucket.empty (old + 1))
    (fun p => old < t.localId.sharedBits p.id) now
  return {
    answer := migration.moved
    table :=
      { t with
        buckets := t.buckets.set old migration.source ++ [migration.dest]
        buckets_ne_nil := by simp }
    events := [.splitBucket old migration.moved] }

def checkedAddAfterSplit (t : Table) (peer : Peer) (now : Time) : Checked (Update Outcome) := do
  let split ← t.checkedSplitLast now
  let (i, b) ← split.table.checkedHome peer.id
  match ← b.checkedAdd peer now with
  | .ok b => return ⟨.added i, split.table.setBucket i b, split.events⟩
  | .error _ => return ⟨.full, split.table, split.events ++ [.stillFullAfterSplit i]⟩

def checkedInsertIntoFull (t : Table) (i : Nat) (b : Bucket) (peer : Peer) (now : Time) :
    Checked (Update Outcome) := do
  match ← b.checkedReplaceBad peer now with
  | .ok (evicted, b') =>
    return ⟨.replaced i evicted, t.setBucket i b', [.replacingPeer b.index peer.id]⟩
  | .error peer =>
    match ← b.checkedReplaceQuestionable peer now with
    | .ok (evicted, b') =>
      return ⟨.replaced i evicted, t.setBucket i b', [.replacingPeer b.index peer.id]⟩
    | .error peer =>
      if ← t.checkedCanSplit i peer.id then t.checkedAddAfterSplit peer now
      else return ⟨.full, t, [.bucketFull i peer.id]⟩

/-- A bucket that is not full must take the peer. -/
def checkedInsert (t : Table) (peer : Peer) (now : Time) : Checked (Update Outcome) :=
  if peer.id = t.localId then return ⟨.selfEntry, t, []⟩
  else do
    let (i, b) ← t.checkedHome peer.id
    if b.contains peer.id then return ⟨.alreadyPresent, t, []⟩
    else if b.isFull then t.checkedInsertIntoFull i b peer now
    else
      match ← b.checkedAdd peer now with
      | .ok b' => return ⟨.added i, t.setBucket i b', []⟩
      | .error _ => .error (.rejectedWithRoom i)

def checkedInsertAll (t : Table) (clock : Nat → Time) : List Peer → Checked (Update (List Outcome))
  | [] => return ⟨[], t, []⟩
  | peer :: rest => do
    let first ← t.checkedInsert peer (clock 0)
    let others ← first.table.checkedInsertAll (fun n => clock (n + 1)) rest
    return ⟨first.answer :: others.answer, others.table, first.events ++ others.events⟩

def checkedGatherClosest (t : Table) (target : NodeId) : Checked (List Peer) := do
  return (← (ClosestSet.new target).checkedExtend t.peers).peers

def checkedRestore (localId : NodeId) (contacts : List Contact) (clock : Nat → Time) :
    Checked (Update (List Outcome)) :=
  (new localId).checkedInsertAll clock (contacts.map Peer.ofContact)

def checkedSeed (localId : NodeId) (source : Table) (target : NodeId) (clock : Nat → Time) :
    Checked (Update (List Outcome)) := do
  (new localId).checkedInsertAll clock (← source.checkedGatherClosest target)

def checkedRandomId? (t : Table) (i : Nat) (drawn : NodeId) : Checked (Option NodeId) :=
  if t.bucketCount ≤ i then return none
  else if i + 1 = t.bucketCount then do
    return some (← drawn.checkedOverwriteLeading t.localId i)
  else do
    let flipped ← t.localId.checkedFlipBit i
    return some (← drawn.checkedOverwriteLeading flipped (i + 1))

def checkedPerform (t : Table) : Operation → Checked (Update Answer)
  | .insert peer now => do
    let update ← t.checkedInsert peer now
    return ⟨.inserted update.answer, update.table, update.events⟩
  | .remove id => do
    match ← t.checkedRemove? id with
    | some (peer, t') => return ⟨.removed (some peer), t', []⟩
    | none => return ⟨.removed none, t, []⟩
  | .markReply id now => do
    let update ← t.checkedMarkReply id now
    return ⟨.marked update.answer, update.table, update.events⟩
  | .markQuery id now => do
    let update ← t.checkedMarkQuery id now
    return ⟨.marked update.answer, update.table, update.events⟩
  | .edit id plan => do
    match ← t.checkedEdit? id fun p => p.editAll (plan p) with
    | some (peer, t') => return ⟨.edited (some peer), t', []⟩
    | none => return ⟨.edited none, t, []⟩

end Table

/-! ### Sessions -/

/-- A question that leaves the table as it is. -/
inductive Query where
  | findBucket (id : NodeId)
  | find (id : NodeId)
  | closest (target : NodeId)
  | snapshot
  | randomId (bucket : Nat) (drawn : NodeId)

/-- What is done with the tables of a session, which are named by their numbers in the
    order in which they were made. -/
inductive Call where
  | new (localId : NodeId)
  | restore (localId : NodeId) (contacts : List Contact) (clock : Nat → Time)
  | seed (localId : NodeId) (source : Nat) (target : NodeId) (clock : Nat → Time)
  | perform (table : Nat) (operation : Operation)
  | sweep {σ : Type} (table : Nat) (plan : σ → Peer → σ × List Edit) (state : σ)
  | ask (table : Nat) (query : Query)

inductive Reply where
  | made (outcomes : List Outcome) (events : List Event)
  | performed (answer : Answer) (events : List Event)
  | swept
  | bucket (index : Nat)
  | peer (found : Option Peer)
  | peers (closest : List Peer)
  | contacts (snapshot : List Contact)
  | id (random : Option NodeId)
  /-- There is no table with this number. -/
  | noTable
deriving DecidableEq, Repr

namespace Table

def ask (t : Table) : Query → Reply
  | .findBucket id => .bucket (t.findBucket id)
  | .find id => .peer (t.find? id)
  | .closest target => .peers (t.gatherClosest target)
  | .snapshot => .contacts t.snapshot
  | .randomId i drawn => .id (t.randomId? i drawn)

def checkedAsk (t : Table) : Query → Checked Reply
  | .findBucket id => do return .bucket (← t.checkedFindBucket id)
  | .find id => do return .peer (← t.checkedFind? id)
  | .closest target => do return .peers (← t.checkedGatherClosest target)
  | .snapshot => return .contacts t.snapshot
  | .randomId i drawn => do return .id (← t.checkedRandomId? i drawn)

end Table

/-- The tables that somebody works with. -/
abbrev Session := List Table

namespace Session

/-- Works on the table with a number, if there is one. -/
def withTable (s : Session) (k : Nat) (work : Table → Reply × Session) : Reply × Session :=
  match s[k]? with
  | some t => work t
  | none => (.noTable, s)

def checkedWithTable (s : Session) (k : Nat) (work : Table → Checked (Reply × Session)) :
    Checked (Reply × Session) :=
  match s[k]? with
  | some t => work t
  | none => return (.noTable, s)

def adopt (s : Session) (made : Table.Update (List Outcome)) : Reply × Session :=
  (.made made.answer made.events, s ++ [made.table])

/-- Replaces the table with a number by what an operation makes of it. -/
def put (s : Session) (k : Nat) (update : Table.Update Answer) : Reply × Session :=
  (.performed update.answer update.events, s.set k update.table)

def respond (s : Session) : Call → Reply × Session
  | .new localId => s.adopt ⟨[], Table.new localId, []⟩
  | .restore localId contacts clock => s.adopt (Table.restore localId contacts clock)
  | .seed localId k target clock =>
    s.withTable k fun source => s.adopt (Table.seed localId source target clock)
  | .perform k operation => s.withTable k fun t => s.put k (t.perform operation)
  | .sweep k plan state => s.withTable k fun t => (.swept, s.set k (t.sweepEdits plan state))
  | .ask k query => s.withTable k fun t => (t.ask query, s)

def checkedRespond (s : Session) : Call → Checked (Reply × Session)
  | .new localId => return s.adopt ⟨[], Table.new localId, []⟩
  | .restore localId contacts clock => do
    return s.adopt (← Table.checkedRestore localId contacts clock)
  | .seed localId k target clock =>
    s.checkedWithTable k fun source => do
      return s.adopt (← Table.checkedSeed localId source target clock)
  | .perform k operation =>
    s.checkedWithTable k fun t => do return s.put k (← t.checkedPerform operation)
  | .sweep k plan state =>
    s.checkedWithTable k fun t => return (.swept, s.set k (t.sweepEdits plan state))
  | .ask k query => s.checkedWithTable k fun t => do return (← t.checkedAsk query, s)

def run (s : Session) : List Call → List Reply × Session
  | [] => ([], s)
  | call :: rest =>
    let first := s.respond call
    let later := first.2.run rest
    (first.1 :: later.1, later.2)

def checkedRun (s : Session) : List Call → Checked (List Reply × Session)
  | [] => return ([], s)
  | call :: rest => do
    let first ← s.checkedRespond call
    let later ← checkedRun first.2 rest
    return (first.1 :: later.1, later.2)

end Session

end Kademlia
