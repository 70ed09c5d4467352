/-
  Kademlia/Bytes/Word.lean
  ========================
  **Words as bytes.**

  A network port is a word of sixteen bits.  The compact format writes it with
  the high byte first, the stored format with either byte first, depending on
  its layout.  A network address is written as four bytes, but the compact format
  reads them as one word of 32 bits, high byte first.
-/

namespace Kademlia

/-- Which of the two bytes of a word comes first. -/
inductive ByteOrder where
  | bigEndian
  | littleEndian
deriving DecidableEq, Repr

namespace ByteOrder

/-- The high and the low byte of a word, in this order's sequence. -/
def split (order : ByteOrder) (word : UInt16) : List UInt8 :=
  let high := UInt8.ofNat (word.toNat / 256)
  let low := UInt8.ofNat (word.toNat % 256)
  match order with
  | .bigEndian => [high, low]
  | .littleEndian => [low, high]

/-- The word whose two bytes arrive as `first` and `second`. -/
def join (order : ByteOrder) (first second : UInt8) : UInt16 :=
  match order with
  | .bigEndian => UInt16.ofNat (256 * first.toNat + second.toNat)
  | .littleEndian => UInt16.ofNat (256 * second.toNat + first.toNat)

end ByteOrder

/-- The word of 32 bits that four bytes spell, high byte first. -/
def joinFour (a b c d : UInt8) : UInt32 :=
  UInt32.ofNat (16777216 * a.toNat + 65536 * b.toNat + 256 * c.toNat + d.toNat)

end Kademlia
