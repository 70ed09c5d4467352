/-
  Kademlia/Proofs/LeadingBits.lean
  ================================
  **Identifiers with chosen leading bits, bit by bit.**

  `NodeId.overwriteLeading` copies whole bytes and blends one, and `NodeId.flipBit`
  changes a single byte.  Here both are said of bits: the first `count` bits are those of
  the one identifier and the others those of the other one (`bit_overwriteLeading`), and
  a flip negates its bit and nothing else (`bit_flipBit`).

  What can come of an overwriting with arbitrary other bits is then exactly what shares
  the first `count` bits (`exists_overwriteLeading_iff`), and to share more bits with a
  flipped identifier is to leave the identifier itself at the flipped one
  (`lt_sharedBits_flipBit_iff`).
-/
import Kademlia.NodeId.LeadingBits
import Kademlia.Proofs.Bits

namespace Kademlia

/-! ### Bytes -/

theorem testBit_highBits : ∀ count < 8, ∀ j < 8,
    (highBits count).toNat.testBit (7 - j) = decide (j < count) := by
  decide

theorem testBit_not_highBits : ∀ count < 8, ∀ j < 8,
    (~~~highBits count).toNat.testBit (7 - j) = !decide (j < count) := by
  decide

theorem testBit_bitMask : ∀ i < 8, ∀ j < 8,
    (NodeId.bitMask i).toNat.testBit (7 - j) = decide (j = i) := by
  decide

theorem testBit_blendByte {count j : Nat} (hcount : count < 8) (hj : j < 8) (src dst : UInt8) :
    (blendByte count src dst).toNat.testBit (7 - j) =
      if j < count then src.toNat.testBit (7 - j) else dst.toNat.testBit (7 - j) := by
  have hhigh := testBit_highBits count hcount j hj
  have hlow := testBit_not_highBits count hcount j hj
  simp only [blendByte, UInt8.toNat_or, UInt8.toNat_and, Nat.testBit_or, Nat.testBit_and,
    hhigh, hlow]
  by_cases hlt : j < count
  · simp [hlt]
  · simp [hlt]

/-! ### Lists of bytes -/

theorem bitOf_overlay {src dst : List UInt8} (hlen : src.length = dst.length) (count i : Nat) :
    bitOf (overlay count src dst) i = if i < count then bitOf src i else bitOf dst i := by
  fun_induction overlay count src dst generalizing i with
  | case1 count s src d dst hwhole ih =>
    by_cases hi : i < 8
    · have hlt : i < count := hi.trans_le hwhole
      simp [bitOf_cons_of_lt, hi, hlt]
    · obtain ⟨j, rfl⟩ := Nat.exists_eq_add_of_le (Nat.le_of_not_lt hi)
      have hshift : j < count - 8 ↔ 8 + j < count := Nat.lt_sub_iff_add_lt'
      simp [bitOf_cons_add, ih (Nat.succ.inj hlen), hshift]
  | case2 count s src d dst hborder =>
    have hcount : count < 8 := Nat.lt_of_not_le hborder
    by_cases hi : i < 8
    · simp [bitOf_cons_of_lt, hi, testBit_blendByte hcount hi]
    · -- the border falls into the first byte, and the bytes after it stay
      obtain ⟨j, rfl⟩ := Nat.exists_eq_add_of_le (Nat.le_of_not_lt hi)
      have hbehind : ¬ 8 + j < count := fun hlt =>
        hi (Nat.lt_of_le_of_lt (by simp) (hlt.trans hcount))
      simp [bitOf_cons_add, hbehind]
  | case3 src count dst hnot =>
    cases src with
    | nil =>
      obtain rfl : dst = [] := List.length_eq_zero_iff.mp hlen.symm
      simp
    | cons s src =>
      cases dst with
      | nil => simp at hlen
      | cons d dst => exact (hnot s src d dst rfl rfl).elim

/-- To change a byte by the mask of a bit is to negate this bit. -/
theorem bitOf_modify {bytes : List UInt8} {k : Nat} (hk : k / 8 < bytes.length) (i : Nat) :
    bitOf (bytes.modify (i / 8) (· ^^^ NodeId.bitMask (i % 8))) k =
      (bitOf bytes k ^^ decide (k = i)) := by
  have hmask := testBit_bitMask (i % 8) (Nat.mod_lt i (by decide)) (k % 8)
    (Nat.mod_lt k (by decide))
  by_cases hbyte : i / 8 = k / 8
  · have hplace : k % 8 = i % 8 ↔ k = i := by omega
    simp [bitOf, hbyte, List.getElem?_eq_getElem hk, hmask, hplace]
  · have hne : k ≠ i := by
      rintro rfl
      exact hbyte rfl
    simp [bitOf, hbyte, hne]

namespace NodeId

/-! ### Flipped bits -/

theorem bit_flipBit (id : NodeId) (i : Nat) {k : Nat} (hk : k < 160) :
    (id.flipBit i).bit k = (id.bit k ^^ decide (k = i)) := by
  have hbyte : k / 8 < id.toBytes.length := by
    rw [length_toBytes]
    exact Nat.div_lt_of_lt_mul hk
  exact bitOf_modify hbyte i

/-- Two identifiers share exactly `i` bits if they agree before place `i` and differ
    there. -/
theorem sharedBits_eq_iff {a b : NodeId} {i : Nat} (hi : i < 160) :
    a.sharedBits b = i ↔ (∀ k < i, a.bit k = b.bit k) ∧ a.bit i ≠ b.bit i := by
  constructor
  · rintro rfl
    exact ⟨fun k => bit_eq_of_lt_sharedBits, bit_sharedBits_ne hi⟩
  · rintro ⟨hbefore, hne⟩
    have hle : i ≤ a.sharedBits b := le_sharedBits_iff.mpr ⟨hi.le, hbefore⟩
    have hnot : ¬ i < a.sharedBits b := fun hlt => hne (bit_eq_of_lt_sharedBits hlt)
    exact le_antisymm (Nat.le_of_not_lt hnot) hle

/-- Who shares the flipped bit, and all before it, leaves the identifier at this bit. -/
theorem lt_sharedBits_flipBit_iff {a b : NodeId} {i : Nat} (hi : i < 160) :
    i < (a.flipBit i).sharedBits b ↔ a.sharedBits b = i := by
  have hbefore : (∀ k < i, (a.flipBit i).bit k = b.bit k) ↔ ∀ k < i, a.bit k = b.bit k := by
    refine forall₂_congr fun k hk => ?_
    simp [a.bit_flipBit i (hk.trans hi), hk.ne]
  have hhere : (a.flipBit i).bit i = b.bit i ↔ a.bit i ≠ b.bit i := by
    simp [a.bit_flipBit i hi, Bool.eq_not]
  calc i < (a.flipBit i).sharedBits b
      ↔ ∀ k < i + 1, (a.flipBit i).bit k = b.bit k := by
        rw [← Nat.succ_le_iff, le_sharedBits_iff]
        exact and_iff_right hi
    _ ↔ (∀ k < i, a.bit k = b.bit k) ∧ a.bit i ≠ b.bit i := by
        rw [Nat.forall_lt_succ_right, hbefore, hhere]
    _ ↔ a.sharedBits b = i := (sharedBits_eq_iff hi).symm

/-! ### Overwritten prefixes -/

theorem bit_overwriteLeading (dst src : NodeId) (count i : Nat) :
    (dst.overwriteLeading src count).bit i = if i < count then src.bit i else dst.bit i :=
  bitOf_overlay (length_toBytes_eq src dst) count i

theorem overwriteLeading_eq_self {dst src : NodeId} {count : Nat}
    (h : count ≤ src.sharedBits dst) : dst.overwriteLeading src count = dst := by
  apply eq_of_bit
  intro i _
  by_cases hi : i < count
  · simp [bit_overwriteLeading, hi, bit_eq_of_lt_sharedBits (hi.trans_le h)]
  · simp [bit_overwriteLeading, hi]

theorem le_sharedBits_overwriteLeading {count : Nat} (hcount : count ≤ 160) (dst src : NodeId) :
    count ≤ src.sharedBits (dst.overwriteLeading src count) := by
  refine le_sharedBits_iff.mpr ⟨hcount, ?_⟩
  intro k hk
  simp [bit_overwriteLeading, hk]

/-- Overwriting the first `count` bits leads to identifiers that share them, and to all of
    those. -/
theorem exists_overwriteLeading_iff {src id : NodeId} {count : Nat} (hcount : count ≤ 160) :
    (∃ dst : NodeId, dst.overwriteLeading src count = id) ↔ count ≤ src.sharedBits id := by
  constructor
  · rintro ⟨dst, rfl⟩
    exact le_sharedBits_overwriteLeading hcount dst src
  · intro h
    exact ⟨id, overwriteLeading_eq_self h⟩

end NodeId

end Kademlia
