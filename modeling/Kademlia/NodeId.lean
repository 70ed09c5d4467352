/-
  Kademlia/NodeId.lean
  ====================
  **Identifiers of 160 bits.**

  Nodes, and the targets of lookups, are named by 20 bytes.  Bits are counted
  from the most significant bit of the first byte, so that the identifiers which
  share their first `k` bits are the leaves of one subtree of depth `k`, and the
  lexicographic order is the numeric one.

  A place is a natural number.  The total functions (`bit`, `flipBit`) leave
  places past the end alone; the checked ones (`bit?`, `flipBit?`) report them as
  a `RangeError`.
-/
import Kademlia.Bytes

namespace Kademlia

/-- A 160-bit identifier. -/
@[ext]
structure NodeId where
  bytes : Bytes 20
deriving DecidableEq, Repr

/-- The ways in which a place or a length can exceed the width of an
    identifier. -/
inductive RangeError where
  | bitIndex (index : Nat)
  | leadingBits (bits : Nat)
deriving DecidableEq, Repr

def RangeError.message : RangeError → String
  | .bitIndex index => s!"bit index {index} out of range"
  | .leadingBits _ => "assertion failed: bits <= Self::BITS"

namespace NodeId

/-! ### Widths and constants -/

def byteCount : Nat := 20

def bitCount : Nat := 160

def zero : NodeId := ⟨Bytes.fill 20 0⟩

/-! ### Bytes -/

/-- The identifier with the given bytes, if there are exactly 20 of them. -/
def ofBytes? (bytes : List UInt8) : Option NodeId :=
  (Bytes.ofList? 20 bytes).map NodeId.mk

/-- The identifier made of the first 20 bytes that a source delivers. -/
def draw (source : Nat → UInt8) : NodeId :=
  ⟨Bytes.draw 20 source⟩

def toBytes (id : NodeId) : List UInt8 :=
  id.bytes.toList

/-- The number that the 20 bytes spell, most significant byte first. -/
def toNat (id : NodeId) : Nat :=
  id.bytes.toNat

/-- Identifiers are ordered lexicographically by their bytes. -/
instance : Ord NodeId := ⟨fun a b => compare a.bytes b.bytes⟩

/-! ### Bits -/

/-- The bit at place `i`, counted from the most significant one; places past the
    end hold no bit and read as `false`. -/
def bit (id : NodeId) (i : Nat) : Bool :=
  match id.toBytes[i / 8]? with
  | some byte => byte.toNat.testBit (7 - i % 8)
  | none => false

/-- The bit at place `i`, or the error that there is no such place. -/
def bit? (id : NodeId) (i : Nat) : Except RangeError Bool :=
  if i < bitCount then .ok (id.bit i) else .error (.bitIndex i)

def bits (id : NodeId) : List Bool :=
  (List.range bitCount).map id.bit

/-- The byte whose only bit is at place `i`, counted from its most significant
    bit. -/
def bitMask (i : Nat) : UInt8 :=
  UInt8.ofNat (0x80 >>> i)

/-- The identifier that differs at place `i` and nowhere else. -/
def flipBit (id : NodeId) (i : Nat) : NodeId :=
  ⟨id.bytes.modify (i / 8) (· ^^^ bitMask (i % 8))⟩

/-- The identifier that differs at place `i` alone, or the error that there is no
    such place. -/
def flipBit? (id : NodeId) (i : Nat) : Except RangeError NodeId :=
  if i < bitCount then .ok (id.flipBit i) else .error (.bitIndex i)

/-- The identifier that differs at every place; no identifier is farther away. -/
def invert (id : NodeId) : NodeId :=
  ⟨id.bytes.map (~~~ ·)⟩

end NodeId

end Kademlia
