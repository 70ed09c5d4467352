/-
  Kademlia/Proofs/FirstDifference.lean
  ====================================
  **The first bit at which two identifiers differ.**

  How many bits two identifiers share is computed in two ways: along the identifiers
  (`NodeId.sharedBits`) and along their distance (`Distance.leadingZeros`).  Both find the
  first place at which the bits differ, or 160 if there is none (`firstDifference_iff`,
  `leadingZeros_distance`).

  To share `i` bits is an equivalence relation, so of the three numbers that belong to three
  identifiers none is less than both others.  A bucket is chosen by these numbers and a
  lookup is answered by distances; the two agree in that whoever shares more bits with a
  target is closer to it.
-/
import Kademlia.Proofs.LeadingBits
import Kademlia.Proofs.Metric

namespace Kademlia

/-! ### Two walks -/

/-- The walk along two lists of bytes stops where the walk along their exclusive or does. -/
theorem leadingZeroBits_zipWith_xor {as bs : List UInt8} (hlen : as.length = bs.length) :
    leadingZeroBits (List.zipWith (· ^^^ ·) as bs) = commonBits as bs := by
  fun_induction commonBits as bs with
  | case1 as b bs ih =>
    have htail : as.length = bs.length := by simpa using hlen
    rw [List.zipWith_cons_cons, leadingZeroBits, UInt8.xor_self, if_pos rfl, ih htail]
  | case2 a as b bs hne =>
    rw [List.zipWith_cons_cons, leadingZeroBits, if_neg (xor_ne_zero hne)]
  | case3 as bs hnot =>
    -- lists of one length that are not both longer are both empty
    cases as with
    | nil => rfl
    | cons a as =>
      cases bs with
      | nil => simp at hlen
      | cons b bs => exact absurd rfl (hnot a as b bs rfl)

namespace NodeId

variable {a b : NodeId} {n : Nat}

theorem leadingZeros_distance (a b : NodeId) : (a.distance b).leadingZeros = a.sharedBits b :=
  leadingZeroBits_zipWith_xor (length_toBytes_eq a b)

/-! ### The first difference -/

/-- Two identifiers agree before place `n` and differ there, unless this is the end. -/
structure FirstDifference (a b : NodeId) (n : Nat) : Prop where
  le_width : n ≤ 160
  agree : ∀ k < n, a.bit k = b.bit k
  differ : n < 160 → a.bit n ≠ b.bit n

theorem firstDifference_sharedBits (a b : NodeId) : FirstDifference a b (a.sharedBits b) where
  le_width := sharedBits_le a b
  agree := fun _ => bit_eq_of_lt_sharedBits
  differ := bit_sharedBits_ne

/-- There is exactly one such place. -/
theorem firstDifference_iff : FirstDifference a b n ↔ n = a.sharedBits b := by
  constructor
  · rintro ⟨hle, hagree, hdiffer⟩
    rcases Nat.lt_or_eq_of_le hle with hlt | rfl
    · exact ((sharedBits_eq_iff hlt).mpr ⟨hagree, hdiffer hlt⟩).symm
    · have hall : 160 ≤ a.sharedBits b := le_sharedBits_iff.mpr ⟨le_rfl, hagree⟩
      exact le_antisymm hall (sharedBits_le a b)
  · rintro rfl
    exact firstDifference_sharedBits a b

theorem sharedBits_eq_width_iff : a.sharedBits b = 160 ↔ a = b := by
  constructor
  · intro h
    exact eq_of_sharedBits h.ge
  · rintro rfl
    exact sharedBits_self a

/-! ### Three identifiers -/

theorem min_le_sharedBits (a b c : NodeId) :
    min (a.sharedBits b) (b.sharedBits c) ≤ a.sharedBits c :=
  le_sharedBits_trans (min_le_left _ _) (min_le_right _ _)

/-- Who leaves `b` earlier than `c` does leaves `c` at the same place, and the other way
    round. -/
theorem sharedBits_eq_min_of_ne {a b c : NodeId} (h : a.sharedBits b ≠ b.sharedBits c) :
    a.sharedBits c = min (a.sharedBits b) (b.sharedBits c) := by
  rcases lt_or_gt_of_ne h with hlt | hgt
  · have hleaves : b.sharedBits a < b.sharedBits c := sharedBits_comm a b ▸ hlt
    rw [sharedBits_eq_of_lt hleaves, sharedBits_comm b a, min_eq_left hlt.le]
  · have hleaves : b.sharedBits c < b.sharedBits a := sharedBits_comm a b ▸ hgt
    rw [sharedBits_comm a c, sharedBits_eq_of_lt hleaves, min_eq_right hgt.le]

/-- **The shared prefix.**  The number of bits that two identifiers share is the place of the
    first difference and the number of leading zeros of their distance.  What `a` and `c` share
    is at least the lesser of what each shares with `b`, and exactly that if these differ.  Who
    shares more bits with `c` is closer to it. -/
theorem sharedBits_exact (a b c : NodeId) :
    (∀ n, FirstDifference a b n ↔ n = a.sharedBits b) ∧
      (a.distance b).leadingZeros = a.sharedBits b ∧
      (a.sharedBits b = 160 ↔ a = b) ∧
      min (a.sharedBits b) (b.sharedBits c) ≤ a.sharedBits c ∧
      (a.sharedBits b ≠ b.sharedBits c →
        a.sharedBits c = min (a.sharedBits b) (b.sharedBits c)) ∧
      (b.sharedBits c < a.sharedBits c → a.distance c < b.distance c) :=
  ⟨fun _ => firstDifference_iff, leadingZeros_distance a b, sharedBits_eq_width_iff,
    min_le_sharedBits a b c, sharedBits_eq_min_of_ne, distance_lt_of_sharedBits_lt⟩

end NodeId

end Kademlia
