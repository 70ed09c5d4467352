/-
  Kademlia/NodeId/LeadingBits.lean
  ================================
  **Identifiers with chosen leading bits.**

  A refresh of a bucket looks up an identifier that is random apart from the
  leading bits that put it into the bucket.  The leading bits come from one
  identifier and all the others from another one: whole bytes are taken from the
  first as long as eight bits are left, the byte in which the border falls is
  blended, and the bytes after it stay.
-/
import Kademlia.NodeId

namespace Kademlia

/-- The byte whose first `count` bits are set, for a count of at most eight. -/
def highBits (count : Nat) : UInt8 :=
  UInt8.ofNat (0xff00 >>> count)

/-- The byte that takes its first `count` bits from `src` and the others from
    `dst`. -/
def blendByte (count : Nat) (src dst : UInt8) : UInt8 :=
  (src &&& highBits count) ||| (dst &&& ~~~(highBits count))

/-- Takes the first `count` bits from `src` and all the others from `dst`. -/
def overlay : Nat → List UInt8 → List UInt8 → List UInt8
  | count, s :: src, d :: dst =>
    if 8 ≤ count then s :: overlay (count - 8) src dst
    else blendByte count s d :: dst
  | _, _, dst => dst

theorem length_overlay (count : Nat) (src dst : List UInt8) :
    (overlay count src dst).length = dst.length := by
  fun_induction overlay count src dst with
  | case1 count s src d dst h ih => simp [ih]
  | case2 => simp
  | case3 => rfl

namespace NodeId

/-- Takes the first `count` bits from `src` and leaves the others.  A count past
    the width takes all of `src`. -/
def overwriteLeading (dst src : NodeId) (count : Nat) : NodeId :=
  ⟨overlay count src.toBytes dst.toBytes, by
    rw [length_overlay]
    exact dst.bytes.length_toList⟩

/-- Takes the first `count` bits from `src`, or reports a count past the
    width. -/
def overwriteLeading? (dst src : NodeId) (count : Nat) : Except RangeError NodeId :=
  if count ≤ bitCount then .ok (dst.overwriteLeading src count)
  else .error (.leadingBits count)

/-- The random identifier that shares at least the first `count` bits with
    `shared`; the other bits are those drawn. -/
def randomSharing? (drawn shared : NodeId) (count : Nat) : Except RangeError NodeId :=
  drawn.overwriteLeading? shared count

end NodeId

end Kademlia
