/-
  Kademlia/NodeId/Text.lean
  =========================
  **The written form of identifiers.**

  An identifier is written as 40 hexadecimal digits.  Reading first asks for 40
  bytes of text, counted as the text is stored (a letter outside ASCII counts
  for two to four), and only then looks at the digits.  A text that passes the
  count and spells no identifier therefore holds a character that is no digit.
-/
import Kademlia.NodeId
import Kademlia.Bytes.Hex

namespace Kademlia

namespace NodeId

/-- The reasons for which a text is not an identifier. -/
inductive ParseError where
  | length (bytes : Nat)
  | digit
deriving DecidableEq, Repr

def ParseError.message : ParseError → String
  | .length bytes => s!"expected 40 hex characters, got {bytes}"
  | .digit => "invalid hex digit"

def text (id : NodeId) : String :=
  Hex.text id.toBytes

def parse (s : String) : Except ParseError NodeId :=
  if s.utf8ByteSize ≠ 40 then
    .error (.length s.utf8ByteSize)
  else
    match (Hex.bytes? s).bind ofBytes? with
    | some id => .ok id
    | none => .error .digit

/-- The form of an identifier that also names its type. -/
def debugText (id : NodeId) : String :=
  "Id(" ++ id.text ++ ")"

end NodeId

end Kademlia
