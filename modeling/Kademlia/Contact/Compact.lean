/-
  Kademlia/Contact/Compact.lean
  =============================
  **The compact form, 26 bytes for each contact.**

  An entry is the 20 bytes of the identifier, the four of the address and the
  two of the port, high byte first.  A buffer is entries and nothing else, so
  every buffer whose length is a multiple of 26 is the form of exactly one list
  of contacts, and no other buffer is the form of any.

  A buffer can arrive in pieces.  `takeAcross?` reads over the border between
  two of them, so that an entry may begin in one piece and end in another.
-/
import Kademlia.Contact
import Kademlia.Bytes.Word

namespace Kademlia

namespace Contact

/-- The 26 bytes of a contact. -/
def toCompact (c : Contact) : List UInt8 :=
  c.id.toBytes ++ c.endpoint.ip.toList ++ ByteOrder.bigEndian.split c.endpoint.port

/-- The contact that 26 bytes describe; another number of bytes describes none.  The
    address is read as one word of 32 bits, and the port as one of sixteen. -/
def ofCompact? (entry : List UInt8) : Option Contact :=
  match Bytes.read? 20 entry with
  | some (id, [a, b, c, d, high, low]) =>
    some ⟨⟨id⟩, ⟨octets (joinFour a b c d), ByteOrder.bigEndian.join high low⟩⟩
  | _ => none

end Contact

namespace Compact

def entryLength : Nat := 26

/-- A buffer whose length is not a multiple of the length of an entry. -/
inductive DecodeError where
  | length (bytes : Nat)
deriving DecidableEq, Repr

def DecodeError.message : DecodeError → String
  | .length bytes => s!"compact node info length {bytes} isn't a multiple of 26"

/-! ### Writing -/

def encode (contacts : List Contact) : List UInt8 :=
  contacts.flatMap Contact.toCompact

def append (buffer : List UInt8) (c : Contact) : List UInt8 :=
  buffer ++ c.toCompact

/-! ### Reading -/

/-- Takes the first `count` bytes from a buffer in pieces, together with the
    pieces that are left, if there are that many bytes. -/
def takeAcross? : Nat → List (List UInt8) → Option (List UInt8 × List (List UInt8))
  | 0, [] => some ([], [])
  | _ + 1, [] => none
  | count, piece :: pieces =>
    if count ≤ piece.length then
      some (piece.take count, piece.drop count :: pieces)
    else
      (takeAcross? (count - piece.length) pieces).map fun (taken, left) =>
        (piece ++ taken, left)

/-- Reads `count` entries from a buffer in pieces. -/
def readEntries? : Nat → List (List UInt8) → Option (List Contact)
  | 0, _ => some []
  | count + 1, pieces =>
    match takeAcross? entryLength pieces with
    | none => none
    | some (entry, rest) =>
      match Contact.ofCompact? entry, readEntries? count rest with
      | some c, some cs => some (c :: cs)
      | _, _ => none

/-- Reads every contact of a buffer that arrives in pieces. -/
def decodePieces (pieces : List (List UInt8)) : Except DecodeError (List Contact) :=
  let bytes := pieces.foldr (fun piece total => piece.length + total) 0
  match if bytes % entryLength = 0 then readEntries? (bytes / entryLength) pieces else none with
  | some contacts => .ok contacts
  | none => .error (.length bytes)

def decode (buffer : List UInt8) : Except DecodeError (List Contact) :=
  decodePieces [buffer]

end Compact

end Kademlia
