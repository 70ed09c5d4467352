/-
  Kademlia/Proofs/Metric.lean
  ===========================
  **Distances as numbers, and how they follow from shared prefixes.**

  Distances are compared byte by byte.  `Distance.le_iff` and `Distance.lt_iff`
  turn the comparison into one of natural numbers, so that the order is linear
  and its facts are facts of arithmetic.

  The table is arranged by shared prefixes and a lookup by distances;
  `NodeId.distance_lt_of_sharedBits_lt` is the bridge: whoever shares more bits
  with a target is closer to it.
-/
import Kademlia.Proofs.Bits
import Mathlib.Tactic.Ring

namespace Kademlia

/-! ### Byte strings as numbers -/

def valueOf (bytes : List UInt8) : Nat :=
  bytes.foldl (fun value byte => value * 256 + byte.toNat) 0

theorem foldl_value (bytes : List UInt8) (start : Nat) :
    bytes.foldl (fun value byte => value * 256 + byte.toNat) start =
      start * 256 ^ bytes.length + valueOf bytes := by
  induction bytes generalizing start with
  | nil => simp [valueOf]
  | cons byte rest ih =>
    rw [valueOf, List.foldl_cons, List.foldl_cons, ih (start * 256 + byte.toNat),
      ih (0 * 256 + byte.toNat), List.length_cons, Nat.pow_succ]
    ring

theorem valueOf_cons (byte : UInt8) (rest : List UInt8) :
    valueOf (byte :: rest) = byte.toNat * 256 ^ rest.length + valueOf rest := by
  rw [valueOf, List.foldl_cons, foldl_value]
  simp

theorem valueOf_lt (bytes : List UInt8) : valueOf bytes < 256 ^ bytes.length := by
  induction bytes with
  | nil => simp [valueOf]
  | cons byte rest ih =>
    have hbyte : byte.toNat + 1 ≤ 256 := byte.toNat_lt
    calc valueOf (byte :: rest)
        = byte.toNat * 256 ^ rest.length + valueOf rest := valueOf_cons byte rest
      _ < byte.toNat * 256 ^ rest.length + 256 ^ rest.length := by omega
      _ = (byte.toNat + 1) * 256 ^ rest.length := by ring
      _ ≤ 256 * 256 ^ rest.length := Nat.mul_le_mul_right _ hbyte
      _ = 256 ^ (byte :: rest).length := by rw [List.length_cons, Nat.pow_succ]; ring

/-- A greater first byte outweighs everything after it. -/
theorem valueOf_cons_lt {a b : UInt8} {as bs : List UInt8} (hlen : as.length = bs.length)
    (h : a < b) : valueOf (a :: as) < valueOf (b :: bs) := by
  have hbyte : a.toNat + 1 ≤ b.toNat := UInt8.lt_iff_toNat_lt.mp h
  calc valueOf (a :: as)
      = a.toNat * 256 ^ as.length + valueOf as := valueOf_cons a as
    _ < a.toNat * 256 ^ as.length + 256 ^ as.length := by
        have := valueOf_lt as
        omega
    _ = (a.toNat + 1) * 256 ^ bs.length := by rw [hlen]; ring
    _ ≤ b.toNat * 256 ^ bs.length := Nat.mul_le_mul_right _ hbyte
    _ ≤ valueOf (b :: bs) := by
        rw [valueOf_cons]
        omega

theorem compare_bytes {as bs : List UInt8} (hlen : as.length = bs.length) :
    compare as bs = compare (valueOf as) (valueOf bs) := by
  induction as generalizing bs with
  | nil =>
    obtain rfl : bs = [] := List.length_eq_zero_iff.mp hlen.symm
    rfl
  | cons a as ih =>
    cases bs with
    | nil => simp at hlen
    | cons b bs =>
      have htail : as.length = bs.length := by simpa using hlen
      rw [List.compare_cons_cons]
      rcases lt_trichotomy a.toNat b.toNat with hlt | heq | hgt
      · have hlt : a < b := UInt8.lt_iff_toNat_lt.mpr hlt
        rw [Std.compare_eq_lt.mpr hlt, Nat.compare_eq_lt.mpr (valueOf_cons_lt htail hlt)]
        rfl
      · obtain rfl : a = b := UInt8.toNat_inj.mp heq
        have hself : compare a a = .eq := Std.ReflCmp.compare_self
        rw [hself, Ordering.eq_then, ih htail, valueOf_cons, valueOf_cons,
          htail]
        rcases lt_trichotomy (valueOf as) (valueOf bs) with h | h | h
        · rw [Nat.compare_eq_lt.mpr h, Nat.compare_eq_lt.mpr (by omega)]
        · rw [h]
          simp
        · rw [Nat.compare_eq_gt.mpr h, Nat.compare_eq_gt.mpr (by omega)]
      · have hgt : b < a := UInt8.lt_iff_toNat_lt.mpr hgt
        rw [Std.compare_eq_gt.mpr hgt, Nat.compare_eq_gt.mpr (valueOf_cons_lt htail.symm hgt)]
        rfl

/-! ### Distances as numbers -/

namespace Distance

theorem length_toList_eq (d e : Distance) : d.bytes.toList.length = e.bytes.toList.length := by
  rw [d.bytes.length_toList, e.bytes.length_toList]

theorem compare_eq (d e : Distance) : compare d e = compare d.toNat e.toNat :=
  compare_bytes (length_toList_eq d e)

theorem le_iff {d e : Distance} : d ≤ e ↔ d.toNat ≤ e.toNat := by
  change (compare d e).isLE = true ↔ _
  rw [compare_eq]
  exact Nat.isLE_compare

theorem lt_iff {d e : Distance} : d < e ↔ d.toNat < e.toNat := by
  change compare d e = .lt ↔ _
  rw [compare_eq]
  exact Nat.compare_eq_lt

theorem toNat_injective {d e : Distance} (h : d.toNat = e.toNat) : d = e := by
  have hcompare : compare d.bytes.toList e.bytes.toList = .eq := by
    change compare d e = .eq
    rw [compare_eq, h]
    exact Nat.compare_eq_eq.mpr rfl
  exact Distance.ext (Bytes.ext (Std.LawfulEqCmp.eq_of_compare hcompare))

theorem toNat_eq_iff {d e : Distance} : d.toNat = e.toNat ↔ d = e :=
  ⟨toNat_injective, congrArg toNat⟩

end Distance

/-! ### Distance and shared prefix -/

theorem lt_of_byteLeadingZeros_lt {x y : UInt8} (hx : x ≠ 0) (hy : y ≠ 0)
    (h : byteLeadingZeros x < byteLeadingZeros y) : y < x := by
  rw [byteLeadingZeros_eq hx, byteLeadingZeros_eq hy] at h
  have hlog : y.toNat.log2 < x.toNat.log2 := by omega
  apply UInt8.lt_iff_toNat_lt.mpr
  calc y.toNat
      < 2 ^ x.toNat.log2 := (Nat.log2_lt (toNat_ne_zero hy)).mp hlog
    _ ≤ x.toNat := Nat.log2_self_le (toNat_ne_zero hx)

/-- Of two lists of bytes, the one that stays longer with a third list is closer to
    it. -/
theorem valueOf_xor_lt {as bs cs : List UInt8} (ha : as.length = cs.length)
    (hb : bs.length = cs.length) (h : commonBits bs cs < commonBits as cs) :
    valueOf (List.zipWith (· ^^^ ·) as cs) < valueOf (List.zipWith (· ^^^ ·) bs cs) := by
  induction cs generalizing as bs with
  | nil =>
    obtain rfl : as = [] := List.length_eq_zero_iff.mp ha
    simp [commonBits] at h
  | cons c cs ih =>
    cases as with
    | nil => simp at ha
    | cons a as =>
      cases bs with
      | nil => simp at hb
      | cons b bs =>
        have ha : as.length = cs.length := by simpa using ha
        have hb : bs.length = cs.length := by simpa using hb
        have hlen : (List.zipWith (· ^^^ ·) as cs).length =
            (List.zipWith (· ^^^ ·) bs cs).length := by simp [ha, hb]
        rw [List.zipWith_cons_cons, List.zipWith_cons_cons]
        by_cases hac : a = c
        · by_cases hbc : b = c
          · -- both agree with the third list here, and the rest decides
            simp only [commonBits, hac, hbc, if_true, Nat.add_lt_add_iff_left] at h
            rw [hac, hbc, valueOf_cons, valueOf_cons, hlen]
            have := ih ha hb h
            omega
          · apply valueOf_cons_lt hlen
            have hpos := toNat_ne_zero (xor_ne_zero hbc)
            rw [hac, UInt8.xor_self]
            apply UInt8.lt_iff_toNat_lt.mpr
            rw [UInt8.toNat_zero]
            omega
        · have hlt := byteLeadingZeros_lt (xor_ne_zero hac)
          by_cases hbc : b = c
          · simp only [commonBits, hac, hbc, if_true, if_false] at h
            omega
          · simp only [commonBits, hac, hbc, if_false] at h
            apply valueOf_cons_lt hlen
            exact lt_of_byteLeadingZeros_lt (xor_ne_zero hbc) (xor_ne_zero hac) h

namespace NodeId

/-- Whoever shares more leading bits with a target is closer to it. -/
theorem distance_lt_of_sharedBits_lt {a b c : NodeId} (h : b.sharedBits c < a.sharedBits c) :
    a.distance c < b.distance c :=
  Distance.lt_iff.mpr (valueOf_xor_lt (length_toBytes_eq a c) (length_toBytes_eq b c) h)

theorem zipWith_xor_injective {as bs cs : List UInt8} (ha : as.length = cs.length)
    (hb : bs.length = cs.length)
    (h : List.zipWith (· ^^^ ·) as cs = List.zipWith (· ^^^ ·) bs cs) : as = bs := by
  induction cs generalizing as bs with
  | nil => rw [List.length_eq_zero_iff.mp ha, List.length_eq_zero_iff.mp hb]
  | cons c cs ih =>
    cases as with
    | nil => simp at ha
    | cons a as =>
      cases bs with
      | nil => simp at hb
      | cons b bs =>
        simp only [List.zipWith_cons_cons, List.cons.injEq, UInt8.xor_left_inj] at h
        rw [h.1, ih (by simpa using ha) (by simpa using hb) h.2]

/-- Two identifiers at the same distance from a target are the same one. -/
theorem distance_injective {a b c : NodeId} (h : a.distance c = b.distance c) : a = b := by
  apply toBytes_injective
  apply zipWith_xor_injective (length_toBytes_eq a c) (length_toBytes_eq b c)
  exact congrArg (fun d => d.bytes.toList) h

end NodeId

end Kademlia
