/-
  Kademlia/Proofs/Text.lean
  =========================
  **Which texts name an identifier.**

  Reading counts bytes before it looks at digits, while the digits are decoded
  character by character.  The two meet in `utf8ByteSize_of_digits`: a text of
  hexadecimal digits has as many bytes as characters.  So a text of 40 bytes either
  is 40 digits or holds a character that is none, and in the first case writing the
  identifier gives the text back in lower case (`decode?_eq_some_iff`).

  There are 22 digits.  What is said of a single one is checked for all of them
  (`of_all_alphabet`); everything longer is an induction over pairs of digits.
-/
import Kademlia.NodeId.Text
import Kademlia.Proofs.Bits
import Mathlib.Data.Bool.AllAny

namespace Kademlia.Hex

/-! ### Digits -/

/-- The hexadecimal digits of both cases. -/
def IsDigit (c : Char) : Prop :=
  ('0' ≤ c ∧ c ≤ '9') ∨ ('a' ≤ c ∧ c ≤ 'f') ∨ ('A' ≤ c ∧ c ≤ 'F')

instance decidableIsDigit : DecidablePred IsDigit := fun c =>
  inferInstanceAs (Decidable (('0' ≤ c ∧ c ≤ '9') ∨ ('a' ≤ c ∧ c ≤ 'f') ∨ ('A' ≤ c ∧ c ≤ 'F')))

/-- The digits that writing uses. -/
def IsLowerDigit (c : Char) : Prop :=
  ('0' ≤ c ∧ c ≤ '9') ∨ ('a' ≤ c ∧ c ≤ 'f')

instance decidableIsLowerDigit : DecidablePred IsLowerDigit := fun c =>
  inferInstanceAs (Decidable (('0' ≤ c ∧ c ≤ '9') ∨ ('a' ≤ c ∧ c ≤ 'f')))

theorem IsLowerDigit.isDigit {c : Char} (h : IsLowerDigit c) : IsDigit c := by
  rcases h with h | h
  · exact Or.inl h
  · exact Or.inr (Or.inl h)

def alphabet : List Char :=
  (List.range' 48 10 ++ List.range' 97 6 ++ List.range' 65 6).map Char.ofNat

theorem mem_alphabet {c : Char} (h : IsDigit c) : c ∈ alphabet := by
  simp only [IsDigit, Char.le_def, UInt32.le_iff_toNat_le, Char.toNat_val] at h
  refine List.mem_map.mpr ⟨c.toNat, ?_, c.ofNat_toNat⟩
  simp only [List.mem_append, List.mem_range'_1]
  change (48 ≤ c.toNat ∧ c.toNat ≤ 57) ∨ (97 ≤ c.toNat ∧ c.toNat ≤ 102) ∨
    (65 ≤ c.toNat ∧ c.toNat ≤ 70) at h
  omega

/-- What is checked for each of the 22 digits holds of every digit. -/
theorem of_all_alphabet {P : Char → Prop} [DecidablePred P] (h : alphabet.all (P ·) = true)
    {c : Char} (hc : IsDigit c) : P c :=
  List.all_iff_forall_prop.mp h c (mem_alphabet hc)

theorem digitValue?_of_isDigit {c : Char} (h : IsDigit c) :
    ∃ value < 16, digitValue? c = some value ∧ digit value = c.toLower :=
  of_all_alphabet (P := fun c => ∃ value < 16, digitValue? c = some value ∧
    digit value = c.toLower) (by decide) h

theorem digitValue?_eq_none {c : Char} (h : ¬ IsDigit c) : digitValue? c = none := by
  simp only [IsDigit, not_or] at h
  simp only [digitValue?, if_neg h.1, if_neg h.2.1, if_neg h.2.2]

theorem isDigit_of_digitValue? {c : Char} {value : Nat} (h : digitValue? c = some value) :
    IsDigit c := by
  by_contra hnot
  rw [digitValue?_eq_none hnot] at h
  cases h

theorem digitValue?_digit {value : Nat} (h : value < 16) :
    digitValue? (digit value) = some value := by
  have hall : ∀ v ∈ List.range 16, digitValue? (digit v) = some v := by decide
  exact hall value (List.mem_range.mpr h)

theorem isLowerDigit_digit {value : Nat} (h : value < 16) : IsLowerDigit (digit value) := by
  have hall : ∀ v ∈ List.range 16, IsLowerDigit (digit v) := by decide
  exact hall value (List.mem_range.mpr h)

theorem toLower_of_isLowerDigit {c : Char} (h : IsLowerDigit c) : c.toLower = c :=
  of_all_alphabet (P := fun c => IsLowerDigit c → c.toLower = c) (by decide) h.isDigit h

theorem utf8Size_of_isDigit {c : Char} (h : IsDigit c) : c.utf8Size = 1 :=
  of_all_alphabet (P := fun c => c.utf8Size = 1) (by decide) h

/-! ### Lists of digits -/

theorem length_encode (bytes : List UInt8) : (encode bytes).length = 2 * bytes.length := by
  induction bytes with
  | nil => rfl
  | cons byte rest ih =>
    simp only [encode, List.length_cons, ih]
    omega

theorem isLowerDigit_of_mem_encode {bytes : List UInt8} {c : Char} (h : c ∈ encode bytes) :
    IsLowerDigit c := by
  induction bytes with
  | nil => simp [encode] at h
  | cons byte rest ih =>
    have hbyte : byte.toNat < 256 := byte.toNat_lt
    simp only [encode, List.mem_cons] at h
    rcases h with rfl | rfl | h
    · exact isLowerDigit_digit (by omega)
    · exact isLowerDigit_digit (by omega)
    · exact ih h

/-- Decoding undoes encoding. -/
theorem decode?_encode (bytes : List UInt8) : decode? (encode bytes) = some bytes := by
  induction bytes with
  | nil => rfl
  | cons byte rest ih =>
    have hbyte : byte.toNat < 256 := byte.toNat_lt
    have hhalves : 16 * (byte.toNat / 16) + byte.toNat % 16 = byte.toNat := by omega
    simp only [encode, decode?, digitValue?_digit (show byte.toNat / 16 < 16 by omega),
      digitValue?_digit (show byte.toNat % 16 < 16 by omega), ih, hhalves, UInt8.ofNat_toNat]

/-- Whatever decodes consists of digits, two for each byte. -/
theorem digits_of_decode? {cs : List Char} {bytes : List UInt8} (h : decode? cs = some bytes) :
    (∀ c ∈ cs, IsDigit c) ∧ cs.length = 2 * bytes.length := by
  fun_induction decode? cs generalizing bytes with
  | case1 =>
    obtain rfl : [] = bytes := Option.some.inj h
    simp
  | case2 c => cases h
  | case3 high low rest hi lo tail htail hlow hhigh ih =>
    obtain rfl : UInt8.ofNat (16 * hi + lo) :: tail = bytes := Option.some.inj h
    obtain ⟨hrest, hlen⟩ := ih htail
    simp only [List.forall_mem_cons, List.length_cons, hlen]
    exact ⟨⟨isDigit_of_digitValue? hhigh, isDigit_of_digitValue? hlow, hrest⟩, by omega⟩
  | case4 => cases h

/-- Digits in pairs decode, and encoding gives them back in lower case. -/
theorem exists_decode? {cs : List Char} {n : Nat} (hlen : cs.length = 2 * n)
    (hdigits : ∀ c ∈ cs, IsDigit c) :
    ∃ bytes, decode? cs = some bytes ∧ encode bytes = cs.map Char.toLower := by
  induction n generalizing cs with
  | zero =>
    obtain rfl := List.length_eq_zero_iff.mp hlen
    exact ⟨[], rfl, rfl⟩
  | succ n ih =>
    obtain ⟨high, low, rest, rfl⟩ : ∃ high low rest, cs = high :: low :: rest := by
      rcases cs with _ | ⟨high, _ | ⟨low, rest⟩⟩
      · simp at hlen
      · simp at hlen
        omega
      · exact ⟨high, low, rest, rfl⟩
    simp only [List.forall_mem_cons] at hdigits
    obtain ⟨hhigh, hlow, hrest⟩ := hdigits
    obtain ⟨hi, hhi, hhiValue, hhiDigit⟩ := digitValue?_of_isDigit hhigh
    obtain ⟨lo, hlo, hloValue, hloDigit⟩ := digitValue?_of_isDigit hlow
    obtain ⟨bytes, hdecode, hencode⟩ := ih (by simp only [List.length_cons] at hlen; omega) hrest
    -- the byte falls into the same two halves again
    have hbyte : (UInt8.ofNat (16 * hi + lo)).toNat = 16 * hi + lo :=
      UInt8.toNat_ofNat_of_lt' (show 16 * hi + lo < 256 by omega)
    have hfirst : (16 * hi + lo) / 16 = hi := by omega
    have hsecond : (16 * hi + lo) % 16 = lo := by omega
    refine ⟨UInt8.ofNat (16 * hi + lo) :: bytes, ?_, ?_⟩
    · simp only [decode?, hhiValue, hloValue, hdecode]
    · simp only [encode, hbyte, hfirst, hsecond, hhiDigit, hloDigit, hencode, List.map_cons]

/-- Decoding is exact: it accepts digits alone, and what it makes of them is written
    as the same digits in lower case. -/
theorem decode?_eq_some_iff {cs : List Char} {bytes : List UInt8} :
    decode? cs = some bytes ↔ (∀ c ∈ cs, IsDigit c) ∧ encode bytes = cs.map Char.toLower := by
  constructor
  · intro h
    obtain ⟨hdigits, hlen⟩ := digits_of_decode? h
    obtain ⟨decoded, hdecoded, hencode⟩ := exists_decode? hlen hdigits
    obtain rfl : bytes = decoded := Option.some.inj (h.symm.trans hdecoded)
    exact ⟨hdigits, hencode⟩
  · rintro ⟨hdigits, hencode⟩
    have hlen : cs.length = 2 * bytes.length := by
      rw [← length_encode, hencode, List.length_map]
    obtain ⟨decoded, hdecoded, hsame⟩ := exists_decode? hlen hdigits
    -- encoding is injective, since decoding undoes it
    have hbytes := decode?_encode bytes
    rw [hencode, ← hsame, decode?_encode] at hbytes
    rw [hdecoded, hbytes]

/-! ### The size of a text of digits -/

theorem utf8ByteSize_ofList {cs : List Char} (h : ∀ c ∈ cs, IsDigit c) :
    (String.ofList cs).utf8ByteSize = cs.length := by
  induction cs with
  | nil => rfl
  | cons c rest ih =>
    simp only [List.forall_mem_cons] at h
    have hcons : String.ofList (c :: rest) = String.singleton c ++ String.ofList rest := by
      simp only [String.singleton_eq_ofList, ← String.ofList_append, List.singleton_append]
    rw [hcons, String.utf8ByteSize_append, String.utf8ByteSize_singleton,
      utf8Size_of_isDigit h.1, ih h.2, List.length_cons, Nat.add_comm]

/-- A text of digits has as many bytes as characters. -/
theorem utf8ByteSize_of_digits {s : String} (h : ∀ c ∈ s.toList, IsDigit c) :
    s.utf8ByteSize = s.toList.length := by
  have hsize := utf8ByteSize_ofList h
  rwa [String.ofList_toList] at hsize

end Kademlia.Hex

namespace Kademlia.NodeId

/-! ### Identifiers -/

theorem ofBytes?_eq_some_iff {bytes : List UInt8} {id : NodeId} :
    ofBytes? bytes = some id ↔ id.toBytes = bytes := by
  simp only [ofBytes?, Bytes.ofList?, Option.map_eq_some_iff]
  constructor
  · rintro ⟨b, hb, rfl⟩
    split at hb
    · obtain rfl := Option.some.inj hb
      rfl
    · cases hb
  · rintro rfl
    exact ⟨id.bytes, by rw [dif_pos id.length_toBytes]; rfl, rfl⟩

theorem toList_text (id : NodeId) : id.text.toList = Hex.encode id.toBytes :=
  String.toList_ofList

theorem length_toList_text (id : NodeId) : id.text.toList.length = 40 := by
  rw [toList_text, Hex.length_encode, length_toBytes]

theorem isLowerDigit_of_mem_text (id : NodeId) : ∀ c ∈ id.text.toList, Hex.IsLowerDigit c := by
  intro c hc
  rw [toList_text] at hc
  exact Hex.isLowerDigit_of_mem_encode hc

theorem text_injective {a b : NodeId} (h : a.text = b.text) : a = b := by
  have hencode := congrArg (fun s => Hex.decode? s.toList) h
  simp only [toList_text, Hex.decode?_encode, Option.some.injEq] at hencode
  exact toBytes_injective hencode

theorem text_eq_toLower_iff {id : NodeId} {s : String} :
    id.text = s.toLower ↔ Hex.encode id.toBytes = s.toList.map Char.toLower := by
  have hlower : s.toLower.toList = s.toList.map Char.toLower := String.toList_map
  rw [← String.toList_inj, toList_text, hlower]

theorem bind_ofBytes?_eq_some_iff {s : String} {id : NodeId} :
    (Hex.bytes? s).bind ofBytes? = some id ↔
      (∀ c ∈ s.toList, Hex.IsDigit c) ∧ id.text = s.toLower := by
  simp only [Option.bind_eq_some_iff, ofBytes?_eq_some_iff, exists_eq_right', Hex.bytes?,
    Hex.decode?_eq_some_iff, text_eq_toLower_iff]

/-- Forty digits are the text of an identifier, up to case. -/
theorem exists_text_eq_toLower {s : String} (hsize : s.utf8ByteSize = 40)
    (hdigits : ∀ c ∈ s.toList, Hex.IsDigit c) : ∃ id : NodeId, id.text = s.toLower := by
  have hlen : s.toList.length = 2 * 20 := by rw [← Hex.utf8ByteSize_of_digits hdigits, hsize]
  obtain ⟨bytes, -, hencode⟩ := Hex.exists_decode? hlen hdigits
  have hbytes : bytes.length = 20 := by
    have hlength := Hex.length_encode bytes
    rw [hencode, List.length_map, hlen] at hlength
    omega
  exact ⟨⟨bytes, hbytes⟩, text_eq_toLower_iff.mpr hencode⟩

/-- The three ways in which reading a text can end: it has the wrong size, or the
    right size and a character that is no digit, or it is read. -/
theorem parse_cases (s : String) :
    (s.utf8ByteSize ≠ 40 ∧ parse s = .error (.length s.utf8ByteSize)) ∨
      (s.utf8ByteSize = 40 ∧ (∃ c ∈ s.toList, ¬ Hex.IsDigit c) ∧ parse s = .error .digit) ∨
      (s.utf8ByteSize = 40 ∧ (∀ c ∈ s.toList, Hex.IsDigit c) ∧
        ∃ id, parse s = .ok id ∧ id.text = s.toLower) := by
  by_cases hsize : s.utf8ByteSize = 40
  · right
    have hparse : parse s = ((Hex.bytes? s).bind ofBytes?).elim (.error .digit) .ok := by
      simp only [parse, hsize, ne_eq, not_true_eq_false, if_false]
      cases (Hex.bytes? s).bind ofBytes? with
      | none => rfl
      | some id => rfl
    by_cases hdigits : ∀ c ∈ s.toList, Hex.IsDigit c
    · right
      obtain ⟨id, htext⟩ := exists_text_eq_toLower hsize hdigits
      rw [bind_ofBytes?_eq_some_iff.mpr ⟨hdigits, htext⟩] at hparse
      exact ⟨hsize, hdigits, id, hparse, htext⟩
    · left
      have hnone : (Hex.bytes? s).bind ofBytes? = none := by
        apply Option.eq_none_iff_forall_ne_some.mpr
        intro id hid
        exact hdigits (bind_ofBytes?_eq_some_iff.mp hid).1
      rw [hnone] at hparse
      refine ⟨hsize, ?_, hparse⟩
      simpa only [not_forall, exists_prop] using hdigits
  · left
    exact ⟨hsize, by rw [parse, if_pos hsize]⟩

theorem parse_eq_length_iff {s : String} {n : Nat} :
    parse s = .error (.length n) ↔ n = s.utf8ByteSize ∧ n ≠ 40 := by
  rcases parse_cases s with ⟨hsize, hparse⟩ | ⟨hsize, -, hparse⟩ | ⟨hsize, -, id, hparse, -⟩
  · simp only [hparse, Except.error.injEq, ParseError.length.injEq]
    constructor
    · rintro rfl
      exact ⟨rfl, hsize⟩
    · rintro ⟨rfl, -⟩
      rfl
  · simp [hparse, hsize]
  · simp [hparse, hsize]

theorem parse_eq_digit_iff {s : String} :
    parse s = .error .digit ↔ s.utf8ByteSize = 40 ∧ ∃ c ∈ s.toList, ¬ Hex.IsDigit c := by
  rcases parse_cases s with ⟨hsize, hparse⟩ | ⟨hsize, hother, hparse⟩ |
    ⟨hsize, hdigits, id, hparse, -⟩
  · simp [hparse, hsize]
  · simp only [hparse, hsize, hother, and_self]
  · simp only [hparse, reduceCtorEq, false_iff, not_and, not_exists, not_not]
    exact fun _ => hdigits

/-- Reading succeeds on the 40 digits of either case, with the one identifier that is
    written as them. -/
theorem parse_eq_ok_iff {s : String} {id : NodeId} :
    parse s = .ok id ↔
      s.utf8ByteSize = 40 ∧ (∀ c ∈ s.toList, Hex.IsDigit c) ∧ id.text = s.toLower := by
  rcases parse_cases s with ⟨hsize, hparse⟩ | ⟨-, ⟨c, hc, hother⟩, hparse⟩ |
    ⟨hsize, hdigits, found, hparse, htext⟩
  · simp [hparse, hsize]
  · simp only [hparse, reduceCtorEq, false_iff, not_and]
    exact fun _ hdigits => absurd (hdigits c hc) hother
  · rw [hparse, Except.ok.injEq]
    constructor
    · rintro rfl
      exact ⟨hsize, hdigits, htext⟩
    · rintro ⟨-, -, hsame⟩
      exact text_injective (htext.trans hsame.symm)

theorem parse_text (id : NodeId) : parse id.text = .ok id := by
  have hdigits : ∀ c ∈ id.text.toList, Hex.IsDigit c :=
    fun c hc => (id.isLowerDigit_of_mem_text c hc).isDigit
  have hsize : id.text.utf8ByteSize = 40 := by
    rw [Hex.utf8ByteSize_of_digits hdigits, length_toList_text]
  have hlower : id.text = id.text.toLower := by
    have hsame : id.text.toList.map Char.toLower = id.text.toList.map fun c => c :=
      List.map_congr_left fun c hc =>
        Hex.toLower_of_isLowerDigit (id.isLowerDigit_of_mem_text c hc)
    rw [text_eq_toLower_iff, hsame, List.map_id', toList_text]
  exact parse_eq_ok_iff.mpr ⟨hsize, hdigits, hlower⟩

/-- **Reading and writing identifiers.**  A text is refused for its length exactly if
    it has not 40 bytes, and for its digits exactly if it has 40 bytes and a character
    that is no digit.  Otherwise it is read, and the identifier is written as the same
    text in lower case.  Whatever is written has 40 lower-case digits, and is read as
    the identifier it was written for. -/
theorem parse_exact :
    (∀ (s : String) (n : Nat),
      parse s = .error (.length n) ↔ n = s.utf8ByteSize ∧ n ≠ 40) ∧
    (∀ s : String,
      parse s = .error .digit ↔ s.utf8ByteSize = 40 ∧ ∃ c ∈ s.toList, ¬ Hex.IsDigit c) ∧
    (∀ s : String, (∃ id, parse s = .ok id ∧ id.text = s.toLower) ↔
      s.utf8ByteSize = 40 ∧ ∀ c ∈ s.toList, Hex.IsDigit c) ∧
    ∀ id : NodeId, id.text.toList.length = 40 ∧
      (∀ c ∈ id.text.toList, Hex.IsLowerDigit c) ∧ parse id.text = .ok id := by
  refine ⟨?_, ?_, ?_, ?_⟩
  · intro s n
    exact parse_eq_length_iff
  · intro s
    exact parse_eq_digit_iff
  · intro s
    constructor
    · rintro ⟨id, hparse, -⟩
      obtain ⟨hsize, hdigits, -⟩ := parse_eq_ok_iff.mp hparse
      exact ⟨hsize, hdigits⟩
    · rintro ⟨hsize, hdigits⟩
      obtain ⟨id, htext⟩ := exists_text_eq_toLower hsize hdigits
      exact ⟨id, parse_eq_ok_iff.mpr ⟨hsize, hdigits, htext⟩, htext⟩
  · intro id
    exact ⟨id.length_toList_text, id.isLowerDigit_of_mem_text, id.parse_text⟩

/-- Digits of both cases are read, and the letter in the second text counts for two
    bytes. -/
theorem parse_exact_mixed :
    (∃ id, parse "00112233445566778899AABBCCDDEEFFaabbccdd" = .ok id ∧
      id.text = "00112233445566778899AABBCCDDEEFFaabbccdd".toLower) ∧
    parse "é112233445566778899AABBCCDDEEFFaabbccdd" = .error .digit ∧
    parse "00ff" = .error (.length 4) := by
  obtain ⟨hlength, hdigit, hread, -⟩ := parse_exact
  refine ⟨(hread _).mpr ⟨by decide, List.all_iff_forall_prop.mp (by decide)⟩,
    (hdigit _).mpr ⟨by decide, ?_⟩, (hlength _ _).mpr ⟨by decide, by decide⟩⟩
  exact ⟨'é', by decide, by decide⟩

end Kademlia.NodeId
