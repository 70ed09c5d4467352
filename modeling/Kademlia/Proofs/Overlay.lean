/-
  Kademlia/Proofs/Overlay.lean
  ============================
  **Overwriting leading bits, again and again.**

  What an overwriting leaves is said without bytes and masks: `Overlays src dst count result`
  gives the first `count` bits of `result` to `src` and the others to `dst`.  There is exactly
  one such identifier, and it is the one that is computed (`overlays_iff`).

  How overwritings combine can then be read off the bits.  No bit is overwritten if none is
  asked for, and every bit if all are; of two overwritings from one identifier the longer one
  decides (`overwriteLeading_overwriteLeading`).
-/
import Kademlia.Proofs.Faultless
import Kademlia.Proofs.LeadingBits

namespace Kademlia.NodeId

variable {src dst result : NodeId} {count : Nat}

/-! ### The identifier that is left -/

/-- The first `count` bits of `result` are those of `src`, and the others those of `dst`. -/
structure Overlays (src dst : NodeId) (count : Nat) (result : NodeId) : Prop where
  leading : ∀ k < count, result.bit k = src.bit k
  trailing : ∀ k, count ≤ k → k < 160 → result.bit k = dst.bit k

theorem overlays_overwriteLeading (src dst : NodeId) (count : Nat) :
    Overlays src dst count (dst.overwriteLeading src count) where
  leading := by
    intro k hk
    rw [bit_overwriteLeading, if_pos hk]
  trailing := by
    intro k hk _
    rw [bit_overwriteLeading, if_neg (Nat.not_lt_of_le hk)]

theorem Overlays.unique {other : NodeId} (h : Overlays src dst count result)
    (h' : Overlays src dst count other) : result = other := by
  apply eq_of_bit
  intro k hk
  rcases Nat.lt_or_ge k count with hlt | hge
  · exact (h.leading k hlt).trans (h'.leading k hlt).symm
  · exact (h.trailing k hge hk).trans (h'.trailing k hge hk).symm

theorem overlays_iff : Overlays src dst count result ↔ result = dst.overwriteLeading src count := by
  constructor
  · intro h
    exact h.unique (overlays_overwriteLeading src dst count)
  · rintro rfl
    exact overlays_overwriteLeading src dst count

/-! ### How overwritings combine -/

theorem overwriteLeading_zero (dst src : NodeId) : dst.overwriteLeading src 0 = dst := by
  have hself : Overlays src dst 0 dst :=
    ⟨fun _ hk => absurd hk (Nat.not_lt_zero _), fun _ _ _ => rfl⟩
  exact (overlays_iff.mp hself).symm

theorem overwriteLeading_full (dst src : NodeId) : dst.overwriteLeading src 160 = src := by
  have hsrc : Overlays src dst 160 src :=
    ⟨fun _ _ => rfl, fun _ hk hlt => absurd hlt (Nat.not_lt_of_le hk)⟩
  exact (overlays_iff.mp hsrc).symm

/-- Of two overwritings from one identifier the longer one decides. -/
theorem overwriteLeading_overwriteLeading (dst src : NodeId) (m n : Nat) :
    (dst.overwriteLeading src m).overwriteLeading src n = dst.overwriteLeading src (max m n) := by
  apply overlays_iff.mp
  constructor
  · intro k hk
    rcases Nat.lt_or_ge k n with hn | hn
    · rw [bit_overwriteLeading, if_pos hn]
    · -- the second one does not reach so far, hence the first one does
      have hm : k < m := (lt_max_iff.mp hk).resolve_right (Nat.not_lt_of_le hn)
      rw [bit_overwriteLeading, if_neg (Nat.not_lt_of_le hn), bit_overwriteLeading, if_pos hm]
  · intro k hk _
    have hm : ¬ k < m := Nat.not_lt_of_le ((le_max_left m n).trans hk)
    have hn : ¬ k < n := Nat.not_lt_of_le ((le_max_right m n).trans hk)
    rw [bit_overwriteLeading, if_neg hn, bit_overwriteLeading, if_neg hm]

/-! ### Lengths up to the width -/

theorem overwriteLeading?_eq (dst src : NodeId) (h : count ≤ 160) :
    dst.overwriteLeading? src count = .ok (dst.overwriteLeading src count) :=
  if_pos h

theorem overwriteLeading?_bind_eq (dst src : NodeId) {m n : Nat} (hm : m ≤ 160) (hn : n ≤ 160) :
    (dst.overwriteLeading? src m >>= fun once => once.overwriteLeading? src n) =
      dst.overwriteLeading? src (max m n) := by
  have hmax : max m n ≤ 160 := max_le hm hn
  rw [overwriteLeading?_eq dst src hm, overwriteLeading?_eq dst src hmax,
    ← overwriteLeading_overwriteLeading]
  exact overwriteLeading?_eq _ src hn

/-- **Overwriting leading bits.**  For every length up to the width there is a result, and no
    byte past the last one is read on the way.  The bits of the result are those of `src` before
    the border and those of `dst` behind it, and no other identifier has these bits.  A length of
    zero changes nothing, the full width makes a copy, and what is done a second time from the
    same identifier counts only as far as it goes beyond the first. -/
theorem overwriteLeading_exact (dst src : NodeId) {m n : Nat} (hm : m ≤ 160) (hn : n ≤ 160) :
    (∃ result, dst.overwriteLeading? src m = .ok result ∧
        dst.checkedOverwriteLeading src m = .ok result ∧
        ∀ other, Overlays src dst m other ↔ other = result) ∧
      dst.overwriteLeading? src 0 = .ok dst ∧
      dst.overwriteLeading? src 160 = .ok src ∧
      (dst.overwriteLeading? src m >>= fun once => once.overwriteLeading? src m) =
        dst.overwriteLeading? src m ∧
      (dst.overwriteLeading? src m >>= fun once => once.overwriteLeading? src n) =
        dst.overwriteLeading? src (max m n) := by
  refine ⟨⟨dst.overwriteLeading src m, overwriteLeading?_eq dst src hm,
    checkedOverwriteLeading_eq dst src hm, fun _ => overlays_iff⟩, ?_, ?_, ?_,
    overwriteLeading?_bind_eq dst src hm hn⟩
  · rw [overwriteLeading?_eq dst src (Nat.zero_le 160), overwriteLeading_zero]
  · rw [overwriteLeading?_eq dst src le_rfl, overwriteLeading_full]
  · rw [overwriteLeading?_bind_eq dst src hm hm, max_self]

/-- The byte behind a border between two bytes is not touched, and the one in which a border
    falls is shared out. -/
theorem overwriteLeading_exact_borders :
    (8 ≤ 160 ∧ 11 ≤ 160) ∧
      (zero.overwriteLeading? zero.invert 8).map toBytes =
        .ok (0xff :: List.replicate 19 0) ∧
      (zero.overwriteLeading? zero.invert 8 >>= fun once =>
        once.overwriteLeading? zero.invert 11) = zero.overwriteLeading? zero.invert 11 ∧
      (zero.overwriteLeading? zero.invert 11).map toBytes =
        .ok (0xff :: 0xe0 :: List.replicate 18 0) := by
  have hwidths : 8 ≤ 160 ∧ 11 ≤ 160 := by decide
  obtain ⟨-, -, -, -, htwice⟩ := overwriteLeading_exact zero zero.invert hwidths.1 hwidths.2
  exact ⟨hwidths, by decide, htwice, by decide⟩

end Kademlia.NodeId
