/-
  Kademlia/Bytes.lean
  ===================
  **Byte strings whose length is part of their type.**

  Identifiers, distances and network addresses are all byte strings of a known
  length, and every operation on them keeps that length.  `Bytes n` carries the
  length once and for all, so that none of the modules above has to ask what a
  short or a long string would mean.  The bytes themselves are a plain list,
  first byte first, which is the order in which they go over the wire and the
  order in which they are compared.

  A byte string is also a number, read with the most significant byte first
  (`toNat`).  The lexicographic order of two strings of one length is the order
  of their numbers.
-/

namespace Kademlia

/-- A byte string of exactly `n` bytes, first byte first. -/
@[ext]
structure Bytes (n : Nat) where
  toList : List UInt8
  length_toList : toList.length = n
deriving DecidableEq, Repr

namespace Bytes

variable {n : Nat}

/-! ### Construction -/

/-- The byte string with the given bytes, if there are exactly `n` of them. -/
def ofList? (n : Nat) (bytes : List UInt8) : Option (Bytes n) :=
  if h : bytes.length = n then some ⟨bytes, h⟩ else none

def fill (n : Nat) (byte : UInt8) : Bytes n :=
  ⟨List.replicate n byte, List.length_replicate⟩

/-- The first `n` bytes that a source of bytes delivers. -/
def draw (n : Nat) (source : Nat → UInt8) : Bytes n :=
  ⟨(List.range n).map source, by simp⟩

/-- Splits the first `n` bytes off an input, if it has that many. -/
def read? (n : Nat) (input : List UInt8) : Option (Bytes n × List UInt8) :=
  if h : n ≤ input.length then
    some (⟨input.take n, by simp [h]⟩, input.drop n)
  else
    none

/-! ### Bytewise operations -/

def map (f : UInt8 → UInt8) (a : Bytes n) : Bytes n :=
  ⟨a.toList.map f, by simp [a.length_toList]⟩

def zipWith (f : UInt8 → UInt8 → UInt8) (a b : Bytes n) : Bytes n :=
  ⟨List.zipWith f a.toList b.toList, by simp [a.length_toList, b.length_toList]⟩

/-- Applies a function to the byte at place `i`; nothing changes past the end. -/
def modify (i : Nat) (f : UInt8 → UInt8) (a : Bytes n) : Bytes n :=
  ⟨a.toList.modify i f, by simp [a.length_toList]⟩

/-! ### Numbers and order -/

/-- The number that the bytes spell, most significant byte first. -/
def toNat (a : Bytes n) : Nat :=
  a.toList.foldl (fun value byte => value * 256 + byte.toNat) 0

/-- Byte strings of one length are ordered lexicographically. -/
instance : Ord (Bytes n) := ⟨fun a b => compare a.toList b.toList⟩

end Bytes

end Kademlia
