/-
  Kademlia/Contact/Stored.lean
  ============================
  **The stored form of identifiers and contacts.**

  A stored identifier is its 20 bytes, a stored contact the identifier, the four
  bytes of the address and the port.  A `Layout` says how the port is written:
  always as two bytes, or as one byte if the port is below 251, and otherwise as
  the byte 251 with two bytes after it.  The long form is accepted for small
  ports, too.  The lead bytes above 251 announce wider integers, which a port
  never is.

  No form is the beginning of another one of the same layout, so a reader knows
  where a value ends: it gives back the bytes that follow.

  The coders of both types are derived from their fields, by bincode.  Those below
  stand for the derived ones: that a record is its fields one behind the other, and
  that a port has the forms above, is what bincode 2 documents and is assumed here.
-/
import Kademlia.Contact
import Kademlia.Bytes.Word

namespace Kademlia.Stored

/-! ### Layouts and errors -/

/-- How a port is written. -/
inductive Layout where
  | fixed
  | shortened (order : ByteOrder)
deriving DecidableEq, Repr

/-- The integers that a lead byte can announce in place of a port. -/
inductive WideInteger where
  | bits32
  | bits64
  | bits128
  | reserved
deriving DecidableEq, Repr

def WideInteger.name : WideInteger → String
  | .bits32 => "U32"
  | .bits64 => "U64"
  | .bits128 => "U128"
  | .reserved => "Reserved"

/-- The reasons for which bytes are not a stored value: they end `missing` bytes
    before the part that is being read does, or a wider integer stands where the
    port should. -/
inductive DecodeError where
  | unexpectedEnd (missing : Nat)
  | wideInteger (found : WideInteger)
deriving DecidableEq, Repr

def DecodeError.message : DecodeError → String
  | .unexpectedEnd missing => s!"UnexpectedEnd \x7b additional: {missing} \x7d"
  | .wideInteger found =>
    let name := found.name
    s!"InvalidIntegerType \x7b expected: U16, found: {name} \x7d"

/-! ### Writing -/

def encodePort (layout : Layout) (port : UInt16) : List UInt8 :=
  match layout with
  | .fixed => ByteOrder.littleEndian.split port
  | .shortened order =>
    if port.toNat < 251 then [UInt8.ofNat port.toNat] else 251 :: order.split port

/-- The stored form of an identifier, the same in every layout. -/
def encodeId (id : NodeId) : List UInt8 :=
  id.toBytes

def encodeContact (layout : Layout) (c : Contact) : List UInt8 :=
  encodeId c.id ++ c.endpoint.ip.toList ++ encodePort layout c.endpoint.port

/-! ### Reading -/

def take (n : Nat) (input : List UInt8) : Except DecodeError (Bytes n × List UInt8) :=
  match Bytes.read? n input with
  | some result => .ok result
  | none => .error (.unexpectedEnd (n - input.length))

def takeWord (order : ByteOrder) (input : List UInt8) :
    Except DecodeError (UInt16 × List UInt8) :=
  match input with
  | first :: second :: rest => .ok (order.join first second, rest)
  | short => .error (.unexpectedEnd (2 - short.length))

/-- The integer that a lead byte above 251 announces. -/
def wideInteger (lead : UInt8) : WideInteger :=
  if lead = 252 then .bits32
  else if lead = 253 then .bits64
  else if lead = 254 then .bits128
  else .reserved

def takePort (layout : Layout) (input : List UInt8) :
    Except DecodeError (UInt16 × List UInt8) :=
  match layout with
  | .fixed => takeWord .littleEndian input
  | .shortened order =>
    match input with
    | [] => .error (.unexpectedEnd 1)
    | lead :: rest =>
      if lead < 251 then .ok (UInt16.ofNat lead.toNat, rest)
      else if lead = 251 then takeWord order rest
      else .error (.wideInteger (wideInteger lead))

/-- Reads an identifier and gives the bytes that follow it. -/
def decodeId (input : List UInt8) : Except DecodeError (NodeId × List UInt8) := do
  let (bytes, rest) ← take 20 input
  return (⟨bytes⟩, rest)

/-- Reads a contact and gives the bytes that follow it. -/
def decodeContact (layout : Layout) (input : List UInt8) :
    Except DecodeError (Contact × List UInt8) := do
  let (id, afterId) ← decodeId input
  let (ip, afterIp) ← take 4 afterId
  let (port, rest) ← takePort layout afterIp
  return (⟨id, ⟨ip, port⟩⟩, rest)

end Kademlia.Stored
