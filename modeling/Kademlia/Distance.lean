/-
  Kademlia/Distance.lean
  ======================
  **The distance between two identifiers.**

  The distance is the exclusive or of the bytes, and distances compare as
  unsigned numbers with the most significant byte first.  It is symmetric, zero
  only between equal identifiers, and every distance from a given identifier
  belongs to exactly one other, so two different identifiers are never equally
  far from a third.

  How many leading bits two identifiers share decides the bucket they put each
  other in.  `NodeId.sharedBits` walks along the two identifiers, and
  `Distance.leadingZeros` along their distance.
-/
import Kademlia.NodeId
import Kademlia.Bytes.Hex

namespace Kademlia

/-- The distance between two identifiers. -/
@[ext]
structure Distance where
  bytes : Bytes 20
deriving DecidableEq, Repr

/-- The number of zero bits before the first set bit of a byte, eight if none is
    set. -/
def byteLeadingZeros (byte : UInt8) : Nat :=
  if byte = 0 then 8 else 7 - byte.toNat.log2

/-- The number of zero bits before the first set bit of a list of bytes. -/
def leadingZeroBits : List UInt8 → Nat
  | [] => 0
  | byte :: rest => if byte = 0 then 8 + leadingZeroBits rest else byteLeadingZeros byte

/-- The number of bits before the first place where two lists of bytes differ. -/
def commonBits : List UInt8 → List UInt8 → Nat
  | a :: as, b :: bs =>
    if a = b then 8 + commonBits as bs else byteLeadingZeros (a ^^^ b)
  | _, _ => 0

namespace Distance

/-! ### Constants and order -/

/-- The distance of an identifier from itself. -/
def zero : Distance := ⟨Bytes.fill 20 0⟩

/-- The distance of an identifier from its complement, the greatest there is. -/
def max : Distance := ⟨Bytes.fill 20 0xff⟩

/-- Distances are ordered lexicographically by their bytes, which is the order of
    their numbers. -/
instance : Ord Distance := ⟨fun a b => compare a.bytes b.bytes⟩

instance : LE Distance := leOfOrd

instance : LT Distance := ltOfOrd

/-! ### Views -/

def toNat (d : Distance) : Nat :=
  d.bytes.toNat

def isZero (d : Distance) : Bool :=
  d == zero

/-- The number of zero bits before the first set one, 160 if none is set. -/
def leadingZeros (d : Distance) : Nat :=
  leadingZeroBits d.bytes.toList

def text (d : Distance) : String :=
  Hex.text d.bytes.toList

/-- The form of a distance that also names its type. -/
def debugText (d : Distance) : String :=
  "Distance(" ++ d.text ++ ")"

end Distance

namespace NodeId

/-- The exclusive or of two identifiers. -/
def distance (a b : NodeId) : Distance :=
  ⟨Bytes.zipWith (· ^^^ ·) a.bytes b.bytes⟩

/-- The number of leading bits that two identifiers share, 160 if they are
    equal. -/
def sharedBits (a b : NodeId) : Nat :=
  commonBits a.toBytes b.toBytes

end NodeId

end Kademlia
