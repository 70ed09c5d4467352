/-
  Kademlia/Proofs/NumericMetric.lean
  ==================================
  **The distance is a metric on numbers of 160 bits.**

  A distance is made byte by byte and compared byte by byte.  Read as numbers, it is the
  exclusive or of the two identifiers (`NodeId.toNat_distance`): the first byte counts a power
  of two, the number that the bytes after it spell is below that power, and so neither of them
  reaches into the bits of the other (`two_pow_mul_add_xor`).

  What is known of the exclusive or of numbers then holds of distances.  Where two bits are
  both set a sum carries and the exclusive or has nothing, so it is never the greater of the
  two, and this is the triangle inequality.  To take it twice with the same target leads back
  to the start, so that exactly one identifier is at a given distance from the target
  (`NodeId.distance_eq_iff`).
-/
import Kademlia.Proofs.Metric
import Mathlib.Data.Nat.Bitwise

namespace Kademlia

/-! ### The exclusive or of numbers -/

/-- A sum carries where the exclusive or drops two bits. -/
theorem xor_le_add (x y : Nat) : x ^^^ y ≤ x + y := by
  induction x using Nat.strongRecOn generalizing y with
  | ind x ih =>
    rcases Nat.eq_zero_or_pos x with rfl | hpos
    · simp
    · have hhalves : (x ^^^ y) / 2 ≤ x / 2 + y / 2 := by
        rw [Nat.xor_div_two]
        exact ih (x / 2) (Nat.div_lt_self hpos (by decide)) (y / 2)
      have hlast : (x ^^^ y) % 2 = (x + y) % 2 := Nat.xor_mod_two_eq
      omega

/-- Low bits and high bits do not meet. -/
theorem two_pow_mul_add_xor {i x y : Nat} (hx : x < 2 ^ i) (hy : y < 2 ^ i) (a b : Nat) :
    (2 ^ i * a + x) ^^^ (2 ^ i * b + y) = 2 ^ i * (a ^^^ b) + (x ^^^ y) := by
  apply Nat.eq_of_testBit_eq
  intro j
  rw [Nat.testBit_xor, Nat.testBit_two_pow_mul_add a hx, Nat.testBit_two_pow_mul_add b hy,
    Nat.testBit_two_pow_mul_add (a ^^^ b) (Nat.xor_lt_two_pow hx hy)]
  by_cases hj : j < i
  · simp [hj]
  · simp [hj]

/-! ### Byte strings -/

theorem valueOf_lt_two_pow (bytes : List UInt8) : valueOf bytes < 2 ^ (8 * bytes.length) := by
  rw [Nat.pow_mul]
  exact valueOf_lt bytes

theorem valueOf_cons_two_pow (byte : UInt8) (rest : List UInt8) :
    valueOf (byte :: rest) = 2 ^ (8 * rest.length) * byte.toNat + valueOf rest := by
  rw [Nat.pow_mul, Nat.mul_comm]
  exact valueOf_cons byte rest

theorem valueOf_zipWith_xor {as bs : List UInt8} (hlen : as.length = bs.length) :
    valueOf (List.zipWith (· ^^^ ·) as bs) = valueOf as ^^^ valueOf bs := by
  induction as generalizing bs with
  | nil =>
    obtain rfl : bs = [] := List.length_eq_zero_iff.mp hlen.symm
    rfl
  | cons a as ih =>
    cases bs with
    | nil => simp at hlen
    | cons b bs =>
      have htail : as.length = bs.length := by simpa using hlen
      have hzip : (List.zipWith (· ^^^ ·) as bs).length = bs.length := by simp [htail]
      have has : valueOf as < 2 ^ (8 * bs.length) := htail ▸ valueOf_lt_two_pow as
      have hbs : valueOf bs < 2 ^ (8 * bs.length) := valueOf_lt_two_pow bs
      rw [List.zipWith_cons_cons, valueOf_cons_two_pow, hzip, ih htail, UInt8.toNat_xor,
        ← two_pow_mul_add_xor has hbs, valueOf_cons_two_pow, valueOf_cons_two_pow, htail]

/-! ### Distances -/

theorem Distance.isZero_iff (d : Distance) : d.isZero = true ↔ d.toNat = 0 := by
  have hzero : Distance.zero.toNat = 0 := by decide
  rw [isZero, beq_iff_eq, ← toNat_eq_iff, hzero]

namespace NodeId

theorem toNat_inj {a b : NodeId} : a.toNat = b.toNat ↔ a = b := by
  constructor
  · intro h
    have hsame : (⟨a.bytes⟩ : Distance) = ⟨b.bytes⟩ := Distance.toNat_injective h
    exact NodeId.ext (congrArg Distance.bytes hsame)
  · exact congrArg toNat

theorem toNat_distance (a b : NodeId) : (a.distance b).toNat = a.toNat ^^^ b.toNat :=
  valueOf_zipWith_xor (length_toBytes_eq a b)

theorem distance_comm (a b : NodeId) : a.distance b = b.distance a := by
  apply Distance.toNat_injective
  rw [toNat_distance, toNat_distance, Nat.xor_comm]

theorem toNat_distance_eq_zero_iff {a b : NodeId} : (a.distance b).toNat = 0 ↔ a = b := by
  rw [toNat_distance, Nat.xor_eq_zero_iff, toNat_inj]

theorem distance_triangle (a b c : NodeId) :
    (a.distance c).toNat ≤ (a.distance b).toNat + (b.distance c).toNat := by
  have hvia : a.toNat ^^^ c.toNat = (a.toNat ^^^ b.toNat) ^^^ (b.toNat ^^^ c.toNat) := by
    rw [Nat.xor_assoc, Nat.xor_xor_cancel_left]
  rw [toNat_distance, toNat_distance, toNat_distance, hvia]
  exact xor_le_add _ _

/-- The identifier at a given distance from a target. -/
def atDistance (target : NodeId) (d : Distance) : NodeId :=
  ⟨Bytes.zipWith (· ^^^ ·) d.bytes target.bytes⟩

theorem toNat_atDistance (target : NodeId) (d : Distance) :
    (target.atDistance d).toNat = d.toNat ^^^ target.toNat :=
  toNat_distance ⟨d.bytes⟩ target

theorem distance_eq_iff {id target : NodeId} {d : Distance} :
    id.distance target = d ↔ id = target.atDistance d := by
  rw [← Distance.toNat_eq_iff, ← toNat_inj, toNat_distance, toNat_atDistance]
  constructor
  · intro h
    rw [← h, Nat.xor_xor_cancel_right]
  · intro h
    rw [h, Nat.xor_xor_cancel_right]

theorem existsUnique_distance (target : NodeId) (d : Distance) :
    ∃! id : NodeId, id.distance target = d :=
  ⟨target.atDistance d, distance_eq_iff.mpr rfl, fun _ => distance_eq_iff.mp⟩

/-- **The metric.**  The number of a distance is the exclusive or of the numbers of the two
    identifiers, and distances compare as their numbers do.  The distance is symmetric, zero
    only between equal identifiers, and no longer than the way over a third one.  Exactly one
    identifier is at a given distance from a target, so that two of them never tie. -/
theorem numeric_metric (a b c : NodeId) :
    (a.distance b).toNat = a.toNat ^^^ b.toNat ∧
      (∀ d e : Distance, compare d e = compare d.toNat e.toNat ∧
        (d ≤ e ↔ d.toNat ≤ e.toNat) ∧ (d = e ↔ d.toNat = e.toNat)) ∧
      a.distance b = b.distance a ∧
      ((a.distance b).isZero = true ↔ a = b) ∧
      ((a.distance b).toNat = 0 ↔ a = b) ∧
      (a.distance c).toNat ≤ (a.distance b).toNat + (b.distance c).toNat ∧
      (∀ (target : NodeId) (d : Distance), ∃! id : NodeId, id.distance target = d) ∧
      (compare (a.distance c) (b.distance c) = .eq ↔ a = b) := by
  have hzero : (a.distance b).toNat = 0 ↔ a = b := toNat_distance_eq_zero_iff
  have htie : compare (a.distance c) (b.distance c) = .eq ↔ a = b := by
    rw [Distance.compare_eq, Nat.compare_eq_eq, Distance.toNat_eq_iff]
    exact ⟨distance_injective, fun h => h ▸ rfl⟩
  refine ⟨toNat_distance a b, ?_, distance_comm a b, ?_, hzero, distance_triangle a b c,
    existsUnique_distance, htie⟩
  · intro d e
    exact ⟨Distance.compare_eq d e, Distance.le_iff, Distance.toNat_eq_iff.symm⟩
  · rw [Distance.isZero_iff, hzero]

end NodeId

end Kademlia
