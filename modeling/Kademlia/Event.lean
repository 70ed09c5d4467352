/-
  Kademlia/Event.lean
  ===================
  **What a table reports while it works.**

  Operations on a table tell an observer about splits, replacements, refusals and
  messages from strangers.  An event is a value that the operation gives back
  along with its answer; what is done with it is the observer's affair.
-/
import Kademlia.NodeId.Text

namespace Kademlia

/-- How much an event matters. -/
inductive Level where
  | debug
  | trace
deriving DecidableEq, Repr

def Level.name : Level → String
  | .debug => "DEBUG"
  | .trace => "TRACE"

/-- Something that happened in a table. -/
inductive Event where
  /-- The last bucket was split, and some of its peers moved to the new one. -/
  | splitBucket (bucket moved : Nat)
  /-- A peer takes the place of another one. -/
  | replacingPeer (bucket : Nat) (id : NodeId)
  /-- A candidate was refused, and no split can make room for it. -/
  | bucketFull (bucket : Nat) (id : NodeId)
  /-- A candidate was refused in spite of a split. -/
  | stillFullAfterSplit (bucket : Nat)
  /-- A reply came from a peer that the table does not hold. -/
  | replyFromUnknown (id : NodeId)
  /-- A query went to a peer that the table does not hold. -/
  | queryToUnknown (id : NodeId)
deriving DecidableEq, Repr

namespace Event

def level : Event → Level
  | .splitBucket _ _ => .debug
  | _ => .trace

def message : Event → String
  | .splitBucket _ _ => "split bucket"
  | .replacingPeer _ _ => "replacing peer"
  | .bucketFull _ _ => "bucket full"
  | .stillFullAfterSplit _ => "bucket still full after split"
  | .replyFromUnknown _ => "reply from unknown peer"
  | .queryToUnknown _ => "query to unknown peer"

/-- The particulars of an event, sorted by name. -/
def fields : Event → List (String × String)
  | .splitBucket bucket moved => [("bucket", toString bucket), ("moved", toString moved)]
  | .replacingPeer bucket id => [("bucket", toString bucket), ("id", id.text)]
  | .bucketFull bucket id => [("bucket", toString bucket), ("id", id.text)]
  | .stillFullAfterSplit bucket => [("bucket", toString bucket)]
  | .replyFromUnknown id => [("id", id.text)]
  | .queryToUnknown id => [("id", id.text)]

/-- An event as one line: its level, its text, and its particulars. -/
def line (e : Event) : String :=
  let words := e.level.name :: e.message :: e.fields.map fun (name, value) => name ++ "=" ++ value
  " ".intercalate words

end Event

end Kademlia
