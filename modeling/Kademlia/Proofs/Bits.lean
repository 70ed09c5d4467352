/-
  Kademlia/Proofs/Bits.lean
  =========================
  **The shared prefix, bit by bit.**

  `NodeId.sharedBits` walks along two identifiers byte by byte and takes a
  logarithm inside the first byte that differs.  Here the number it finds is
  identified with the first place at which the bits differ
  (`bit_eq_of_lt_sharedBits`, `bit_sharedBits_ne`), and hence with a family of
  equivalence relations: to share at least `i` bits means to agree on the first
  `i` of them (`le_sharedBits_iff`).

  Because there are only finitely many continuations of a prefix, only finitely
  many identifiers share it; `length_le_of_sharing` is the count on which the
  depth of a table rests.
-/
import Kademlia.Distance
import Mathlib.Data.Fintype.BigOperators
import Mathlib.Data.List.Nodup

namespace Kademlia

/-! ### Bytes -/

/-- Two bytes with the same eight bits are equal. -/
theorem byte_eq_of_testBit {a b : UInt8}
    (h : ∀ j < 8, a.toNat.testBit j = b.toNat.testBit j) : a = b := by
  apply UInt8.toNat_inj.mp
  apply Nat.eq_of_testBit_eq
  intro j
  by_cases hj : j < 8
  · exact h j hj
  · -- neither byte reaches the place, so both read `false` there
    have hpow : 2 ^ 8 ≤ 2 ^ j := Nat.pow_le_pow_right (by omega) (by omega)
    have ha : a.toNat < 2 ^ j := Nat.lt_of_lt_of_le a.toNat_lt hpow
    have hb : b.toNat < 2 ^ j := Nat.lt_of_lt_of_le b.toNat_lt hpow
    rw [Nat.testBit_lt_two_pow ha, Nat.testBit_lt_two_pow hb]

theorem byteLeadingZeros_eq {x : UInt8} (hx : x ≠ 0) :
    byteLeadingZeros x = 7 - x.toNat.log2 := by
  rw [byteLeadingZeros, if_neg hx]

theorem toNat_ne_zero {x : UInt8} (hx : x ≠ 0) : x.toNat ≠ 0 := by
  intro h
  exact hx (UInt8.toNat_inj.mp (by simpa using h))

theorem log2_byte_lt {x : UInt8} (hx : x ≠ 0) : x.toNat.log2 < 8 :=
  (Nat.log2_lt (toNat_ne_zero hx)).mpr x.toNat_lt

theorem byteLeadingZeros_lt {x : UInt8} (hx : x ≠ 0) : byteLeadingZeros x < 8 := by
  rw [byteLeadingZeros_eq hx]
  omega

/-- The bit behind the leading zeros is set. -/
theorem testBit_byteLeadingZeros {x : UInt8} (hx : x ≠ 0) :
    x.toNat.testBit (7 - byteLeadingZeros x) = true := by
  have hlog := log2_byte_lt hx
  have heq : 7 - byteLeadingZeros x = x.toNat.log2 := by
    rw [byteLeadingZeros_eq hx]
    omega
  rw [heq]
  exact Nat.testBit_log2 (toNat_ne_zero hx)

theorem testBit_of_lt_byteLeadingZeros {x : UInt8} (hx : x ≠ 0) {j : Nat}
    (hj : j < byteLeadingZeros x) : x.toNat.testBit (7 - j) = false := by
  rw [byteLeadingZeros_eq hx] at hj
  apply Nat.testBit_lt_two_pow
  exact (Nat.log2_lt (toNat_ne_zero hx)).mp (by omega)

/-! ### Lists of bytes -/

/-- The bit at place `i` of a list of bytes, counted as in `NodeId.bit`. -/
def bitOf (bytes : List UInt8) (i : Nat) : Bool :=
  match bytes[i / 8]? with
  | some byte => byte.toNat.testBit (7 - i % 8)
  | none => false

theorem bitOf_cons_of_lt (byte : UInt8) (rest : List UInt8) {i : Nat} (hi : i < 8) :
    bitOf (byte :: rest) i = byte.toNat.testBit (7 - i) := by
  simp [bitOf, Nat.div_eq_of_lt hi, Nat.mod_eq_of_lt hi]

theorem bitOf_cons_add (byte : UInt8) (rest : List UInt8) (i : Nat) :
    bitOf (byte :: rest) (8 + i) = bitOf rest i := by
  have hdiv : (8 + i) / 8 = i / 8 + 1 := by omega
  have hmod : (8 + i) % 8 = i % 8 := by omega
  simp [bitOf, hdiv, hmod]

theorem bytes_eq_of_bitOf {as bs : List UInt8} (hlen : as.length = bs.length)
    (h : ∀ i < 8 * as.length, bitOf as i = bitOf bs i) : as = bs := by
  induction as generalizing bs with
  | nil => exact (List.length_eq_zero_iff.mp hlen.symm).symm
  | cons a as ih =>
    cases bs with
    | nil => simp at hlen
    | cons b bs =>
      have hhead : a = b := by
        apply byte_eq_of_testBit
        intro j hj
        have hbit := h (7 - j) (by simp only [List.length_cons]; omega)
        rw [bitOf_cons_of_lt a as (by omega), bitOf_cons_of_lt b bs (by omega)] at hbit
        rwa [show 7 - (7 - j) = j by omega] at hbit
      have htail : as = bs := by
        apply ih (by simpa using hlen)
        intro i hi
        have hbit := h (8 + i) (by simp only [List.length_cons]; omega)
        rwa [bitOf_cons_add, bitOf_cons_add] at hbit
      rw [hhead, htail]

theorem xor_ne_zero {a b : UInt8} (h : a ≠ b) : a ^^^ b ≠ 0 := by
  intro hzero
  exact h (UInt8.xor_eq_zero_iff.mp hzero)

theorem testBit_xor_byte (a b : UInt8) (j : Nat) :
    (a ^^^ b).toNat.testBit j = (a.toNat.testBit j ^^ b.toNat.testBit j) := by
  rw [UInt8.toNat_xor, Nat.testBit_xor]

theorem bitOf_eq_of_lt_commonBits {as bs : List UInt8} {i : Nat}
    (hi : i < commonBits as bs) : bitOf as i = bitOf bs i := by
  fun_induction commonBits as bs generalizing i with
  | case1 as b bs ih =>
    by_cases hlt : i < 8
    · rw [bitOf_cons_of_lt b as hlt, bitOf_cons_of_lt b bs hlt]
    · obtain ⟨j, rfl⟩ : ∃ j, i = 8 + j := ⟨i - 8, by omega⟩
      rw [bitOf_cons_add, bitOf_cons_add]
      exact ih (by omega)
  | case2 a as b bs hne =>
    have hlt : i < 8 := Nat.lt_trans hi (byteLeadingZeros_lt (xor_ne_zero hne))
    have hzero := testBit_of_lt_byteLeadingZeros (xor_ne_zero hne) hi
    rw [testBit_xor_byte] at hzero
    rw [bitOf_cons_of_lt a as hlt, bitOf_cons_of_lt b bs hlt]
    simpa using hzero
  | case3 => omega

/-- Unless the lists agree throughout, the bits at the first difference differ. -/
theorem bitOf_commonBits_ne {as bs : List UInt8} (hlen : as.length = bs.length)
    (h : commonBits as bs < 8 * as.length) :
    bitOf as (commonBits as bs) ≠ bitOf bs (commonBits as bs) := by
  fun_induction commonBits as bs with
  | case1 as b bs ih =>
    rw [bitOf_cons_add, bitOf_cons_add]
    simp only [List.length_cons] at hlen h
    exact ih (by omega) (by omega)
  | case2 a as b bs hne =>
    have hlt := byteLeadingZeros_lt (xor_ne_zero hne)
    have hone := testBit_byteLeadingZeros (xor_ne_zero hne)
    rw [testBit_xor_byte] at hone
    rw [bitOf_cons_of_lt a as hlt, bitOf_cons_of_lt b bs hlt]
    simpa using hone
  | case3 as bs hnot =>
    exfalso
    cases as with
    | nil => simp at h
    | cons a as =>
      cases bs with
      | nil => simp at hlen
      | cons b bs => exact hnot a as b bs rfl rfl

theorem commonBits_le {as bs : List UInt8} (hlen : as.length = bs.length) :
    commonBits as bs ≤ 8 * as.length := by
  fun_induction commonBits as bs with
  | case1 as b bs ih =>
    simp only [List.length_cons] at hlen ⊢
    have := ih (by omega)
    omega
  | case2 a as b bs hne =>
    have := byteLeadingZeros_lt (xor_ne_zero hne)
    simp only [List.length_cons]
    omega
  | case3 => omega

namespace NodeId

/-! ### Identifiers -/

theorem length_toBytes (a : NodeId) : a.toBytes.length = 20 :=
  a.bytes.length_toList

theorem toBytes_injective {a b : NodeId} (h : a.toBytes = b.toBytes) : a = b :=
  NodeId.ext (Bytes.ext h)

theorem length_toBytes_eq (a b : NodeId) : a.toBytes.length = b.toBytes.length := by
  rw [length_toBytes, length_toBytes]

/-- The 160 bits determine an identifier. -/
theorem eq_of_bit {a b : NodeId} (h : ∀ i < 160, a.bit i = b.bit i) : a = b := by
  apply toBytes_injective
  apply bytes_eq_of_bitOf (length_toBytes_eq a b)
  intro i hi
  rw [length_toBytes] at hi
  exact h i hi

theorem sharedBits_le (a b : NodeId) : a.sharedBits b ≤ 160 := by
  have h := commonBits_le (length_toBytes_eq a b)
  rwa [length_toBytes] at h

theorem bit_eq_of_lt_sharedBits {a b : NodeId} {i : Nat} (hi : i < a.sharedBits b) :
    a.bit i = b.bit i :=
  bitOf_eq_of_lt_commonBits hi

theorem bit_sharedBits_ne {a b : NodeId} (h : a.sharedBits b < 160) :
    a.bit (a.sharedBits b) ≠ b.bit (a.sharedBits b) := by
  apply bitOf_commonBits_ne (length_toBytes_eq a b)
  rw [length_toBytes]
  exact h

/-- To share at least `i` bits is to agree on the first `i`. -/
theorem le_sharedBits_iff {a b : NodeId} {i : Nat} :
    i ≤ a.sharedBits b ↔ i ≤ 160 ∧ ∀ k < i, a.bit k = b.bit k := by
  constructor
  · intro h
    exact ⟨h.trans (sharedBits_le a b), fun k hk => bit_eq_of_lt_sharedBits (hk.trans_le h)⟩
  · rintro ⟨hi, hbits⟩
    by_contra hlt
    have hlt : a.sharedBits b < i := not_le.mp hlt
    exact bit_sharedBits_ne (hlt.trans_le hi) (hbits _ hlt)

theorem le_sharedBits_symm {a b : NodeId} {i : Nat} (h : i ≤ a.sharedBits b) :
    i ≤ b.sharedBits a := by
  rw [le_sharedBits_iff] at h ⊢
  exact ⟨h.1, fun k hk => (h.2 k hk).symm⟩

theorem le_sharedBits_trans {a b c : NodeId} {i : Nat}
    (hab : i ≤ a.sharedBits b) (hbc : i ≤ b.sharedBits c) : i ≤ a.sharedBits c := by
  rw [le_sharedBits_iff] at hab hbc ⊢
  exact ⟨hab.1, fun k hk => (hab.2 k hk).trans (hbc.2 k hk)⟩

theorem sharedBits_comm (a b : NodeId) : a.sharedBits b = b.sharedBits a :=
  le_antisymm (le_sharedBits_symm le_rfl) (le_sharedBits_symm le_rfl)

theorem sharedBits_self (a : NodeId) : a.sharedBits a = 160 :=
  le_antisymm (sharedBits_le a a) (le_sharedBits_iff.mpr ⟨le_rfl, fun _ _ => rfl⟩)

theorem eq_of_sharedBits {a b : NodeId} (h : 160 ≤ a.sharedBits b) : a = b :=
  eq_of_bit (le_sharedBits_iff.mp h).2

/-- Two identifiers that leave a third one at the same place go on together: there
    is only one other way to go. -/
theorem lt_sharedBits_of_eq {a b c : NodeId} {i : Nat} (hi : i < 160)
    (hca : c.sharedBits a = i) (hcb : c.sharedBits b = i) : i < a.sharedBits b := by
  have hac := bit_sharedBits_ne (a := c) (b := a) (by omega)
  have hbc := bit_sharedBits_ne (a := c) (b := b) (by omega)
  rw [hca] at hac
  rw [hcb] at hbc
  apply le_sharedBits_iff.mpr
  refine ⟨hi, ?_⟩
  intro k hk
  rcases Nat.lt_succ_iff_lt_or_eq.mp hk with hlt | rfl
  · rw [← bit_eq_of_lt_sharedBits (a := c) (b := a) (by omega),
      ← bit_eq_of_lt_sharedBits (a := c) (b := b) (by omega)]
  · -- both bits are the opposite of the third
    cases hc : c.bit k <;> simp_all

/-- Of two identifiers that share different numbers of bits with a third one, the
    lesser number is what they share with each other. -/
theorem sharedBits_eq_of_lt {a b c : NodeId} (h : c.sharedBits a < c.sharedBits b) :
    a.sharedBits b = c.sharedBits a := by
  apply le_antisymm
  · by_contra hlt
    have hlt : c.sharedBits a < a.sharedBits b := not_le.mp hlt
    have hle : c.sharedBits a + 1 ≤ c.sharedBits a :=
      le_sharedBits_trans (b := b) h (le_sharedBits_symm hlt)
    omega
  · exact le_sharedBits_trans (b := c) (le_sharedBits_symm le_rfl) h.le

/-! ### Counting -/

def tailBits (i : Nat) (a : NodeId) : Fin (160 - i) → Bool :=
  fun k => a.bit (i + k)

theorem eq_of_tailBits {a b : NodeId} {i : Nat} (hshared : i ≤ a.sharedBits b)
    (htail : tailBits i a = tailBits i b) : a = b := by
  apply eq_of_bit
  intro k hk
  by_cases hlt : k < i
  · exact bit_eq_of_lt_sharedBits (hlt.trans_le hshared)
  · have hbit := congrFun htail ⟨k - i, by omega⟩
    simp only [tailBits] at hbit
    rwa [show i + (k - i) = k by omega] at hbit

/-- There are at most `2 ^ (160 - i)` identifiers that share `i` bits with a given
    one. -/
theorem length_le_of_sharing (a : NodeId) (i : Nat) (ids : List NodeId)
    (hnodup : ids.Nodup) (hshared : ∀ id ∈ ids, i ≤ a.sharedBits id) :
    ids.length ≤ 2 ^ (160 - i) := by
  have hinj : (ids.map (tailBits i)).Nodup := by
    apply List.Nodup.map_on _ hnodup
    intro x hx y hy htail
    exact eq_of_tailBits
      (le_sharedBits_trans (le_sharedBits_symm (hshared x hx)) (hshared y hy)) htail
  have hcard := hinj.length_le_card
  simpa using hcard

end NodeId

end Kademlia
