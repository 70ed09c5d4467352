/-
  Kademlia/Proofs/Stored.lean
  ===========================
  **A stored value says where it ends.**

  What a form has to guarantee is `SelfDelimiting`: whatever stands behind a written value,
  reading gives that value back and leaves the rest; a value that is cut off is noticed; and
  nothing that can be read is shorter than what would be written.  It is shown for each of the
  parts and carried over to values made of them (`SelfDelimiting.both`), so that a further part
  or another layout of the port needs one lemma.  No form is then the beginning of another one
  of the same layout (`encodeContact_prefixFree`).

  That the derived coders follow the layout is assumed.  `encodeContact_layout` says what the
  layout is, with the forms of a port in numbers (`PortForm`).

  Writing does not undo reading.  A port below 251 may stand in its long form, too, and is then
  written shorter than it was found.  No other value has a form apart from the one in which it
  is written.
-/
import Kademlia.Contact.Stored
import Kademlia.Proofs.Compact

namespace Kademlia.Stored

variable {α β : Type}

/-! ### Self-delimiting forms -/

/-- What makes `write` and `read` a form in which values can stand one behind the other. -/
structure SelfDelimiting (write : α → List UInt8)
    (read : List UInt8 → Except DecodeError (α × List UInt8)) : Prop where
  /-- A written value is read, and what follows it is left. -/
  read_write : ∀ v rest, read (write v ++ rest) = .ok (v, rest)
  /-- The front of a written value is not read, and what is said to be missing was cut off. -/
  read_front : ∀ {v front back}, write v = front ++ back → back ≠ [] →
    ∃ missing, 0 < missing ∧ missing ≤ back.length ∧
      read front = .error (.unexpectedEnd missing)
  /-- What is read stands at the front of the input, and among the forms of a value none is
      shorter than the one in which it is written, nor just as short. -/
  of_read : ∀ {input v rest}, read input = .ok (v, rest) →
    ∃ consumed, input = consumed ++ rest ∧ (write v).length ≤ consumed.length ∧
      (consumed.length ≤ (write v).length → consumed = write v)

section Forms

variable {write : α → List UInt8} {read : List UInt8 → Except DecodeError (α × List UInt8)}

theorem SelfDelimiting.read_write_self (h : SelfDelimiting write read) (v : α) :
    read (write v) = .ok (v, []) := by
  have hread := h.read_write v []
  rwa [List.append_nil] at hread

/-- No form is the beginning of another one. -/
theorem SelfDelimiting.prefixFree (h : SelfDelimiting write read) {v w : α}
    (hbegins : write v <+: write w) : v = w := by
  obtain ⟨back, hback⟩ := hbegins
  have hread := h.read_write v back
  rw [hback, h.read_write_self w] at hread
  cases hread
  rfl

/-- A part that is always written and found as the same bytes. -/
theorem SelfDelimiting.of_read_eq_ok_iff
    (hok : ∀ {input v rest}, read input = .ok (v, rest) ↔ input = write v ++ rest)
    (hfront : ∀ {v front back}, write v = front ++ back → back ≠ [] →
      ∃ missing, 0 < missing ∧ missing ≤ back.length ∧
        read front = .error (.unexpectedEnd missing)) :
    SelfDelimiting write read where
  read_write _ _ := hok.mpr rfl
  read_front := hfront
  of_read hread := ⟨_, hok.mp hread, le_rfl, fun _ => rfl⟩

end Forms

/-! ### Values made of parts -/

/-- Writes two values, one behind the other. -/
def writeBoth (first : α → List UInt8) (second : β → List UInt8) (v : α × β) : List UInt8 :=
  first v.1 ++ second v.2

def readBoth (first : List UInt8 → Except DecodeError (α × List UInt8))
    (second : List UInt8 → Except DecodeError (β × List UInt8)) (input : List UInt8) :
    Except DecodeError ((α × β) × List UInt8) := do
  let (a, afterFirst) ← first input
  let (b, rest) ← second afterFirst
  return ((a, b), rest)

/-- Reads a value and makes another one of it. -/
def readAs (make : α → β) (read : List UInt8 → Except DecodeError (α × List UInt8))
    (input : List UInt8) : Except DecodeError (β × List UInt8) := do
  let (a, rest) ← read input
  return (make a, rest)

section Parts

variable {first : α → List UInt8} {second : β → List UInt8}
  {readFirst : List UInt8 → Except DecodeError (α × List UInt8)}
  {readSecond : List UInt8 → Except DecodeError (β × List UInt8)}

theorem readBoth_eq_of_ok {input afterFirst : List UInt8} {a : α}
    (h : readFirst input = .ok (a, afterFirst)) :
    readBoth readFirst readSecond input = readAs (Prod.mk a) readSecond afterFirst := by
  rw [readBoth, h]
  rfl

theorem readBoth_eq_error {input : List UInt8} {e : DecodeError}
    (h : readFirst input = .error e) : readBoth readFirst readSecond input = .error e := by
  rw [readBoth, h]
  rfl

theorem readAs_eq_ok_iff {make : α → β} {input rest : List UInt8} {b : β} :
    readAs make readFirst input = .ok (b, rest) ↔
      ∃ a, readFirst input = .ok (a, rest) ∧ make a = b := by
  unfold readAs
  rcases readFirst input with e | ⟨a, rest'⟩
  · constructor
    · intro h
      cases h
    · rintro ⟨a, h, -⟩
      cases h
  · constructor
    · intro h
      cases h
      exact ⟨a, rfl, rfl⟩
    · rintro ⟨a', h, rfl⟩
      cases h
      rfl

theorem readAs_eq_error {make : α → β} {input : List UInt8} {e : DecodeError}
    (h : readFirst input = .error e) : readAs make readFirst input = .error e := by
  rw [readAs, h]
  rfl

/-- A cut through two lists that stand one behind the other goes through the second one, or it
    takes something of the first one away. -/
theorem cut_cases {a b front back : List UInt8} (h : a ++ b = front ++ back) :
    (∃ inside, front = a ++ inside ∧ b = inside ++ back) ∨
      ∃ inside, a = front ++ inside ∧ back = inside ++ b ∧ inside ≠ [] := by
  obtain hsecond | ⟨inside, ha, hb⟩ := List.append_eq_append_iff.mp h
  · exact .inl hsecond
  · rcases eq_or_ne inside [] with rfl | hinside
    · exact .inl ⟨[], by rw [ha, List.append_nil, List.append_nil], hb.symm⟩
    · exact .inr ⟨inside, ha, hb, hinside⟩

theorem SelfDelimiting.both (hfirst : SelfDelimiting first readFirst)
    (hsecond : SelfDelimiting second readSecond) :
    SelfDelimiting (writeBoth first second) (readBoth readFirst readSecond) where
  read_write v rest := by
    have hread := hfirst.read_write v.1 (second v.2 ++ rest)
    rw [writeBoth, List.append_assoc, readBoth_eq_of_ok hread, readAs_eq_ok_iff]
    exact ⟨v.2, hsecond.read_write v.2 rest, rfl⟩
  read_front {v front back} hwrite hback := by
    obtain ⟨inside, rfl, hrest⟩ | ⟨inside, hrest, rfl, hinside⟩ := cut_cases hwrite
    · -- the first value is whole
      obtain ⟨missing, hpos, hle, hread⟩ := hsecond.read_front hrest hback
      refine ⟨missing, hpos, hle, ?_⟩
      rw [readBoth_eq_of_ok (hfirst.read_write v.1 inside)]
      exact readAs_eq_error hread
    · obtain ⟨missing, hpos, hle, hread⟩ := hfirst.read_front hrest hinside
      refine ⟨missing, hpos, ?_, readBoth_eq_error hread⟩
      rw [List.length_append]
      exact hle.trans (Nat.le_add_right _ _)
  of_read {input v rest} hread := by
    rcases hone : readFirst input with e | ⟨a, afterFirst⟩
    · rw [readBoth_eq_error hone] at hread
      cases hread
    · rw [readBoth_eq_of_ok hone, readAs_eq_ok_iff] at hread
      obtain ⟨b, htwo, rfl⟩ := hread
      obtain ⟨one, rfl, hle, heq⟩ := hfirst.of_read hone
      obtain ⟨two, rfl, hle', heq'⟩ := hsecond.of_read htwo
      simp only [writeBoth, List.length_append]
      refine ⟨one ++ two, (List.append_assoc _ _ _).symm, ?_, ?_⟩
      · rw [List.length_append]
        exact Nat.add_le_add hle hle'
      · intro hshort
        rw [List.length_append] at hshort
        -- neither of the parts can make up for the other one
        have hshortOne : one.length ≤ (first a).length :=
          Nat.le_of_add_le_add_right ((Nat.add_le_add_left hle' _).trans hshort)
        have hshortTwo : two.length ≤ (second b).length :=
          Nat.le_of_add_le_add_left ((Nat.add_le_add_right hle _).trans hshort)
        rw [heq hshortOne, heq' hshortTwo]

/-- A form of a value is a form of what is made of the value. -/
theorem SelfDelimiting.as (h : SelfDelimiting first readFirst) (make : α → β) (back : β → α)
    (hmake : ∀ b, make (back b) = b) (hback : ∀ a, back (make a) = a) :
    SelfDelimiting (first ∘ back) (readAs make readFirst) where
  read_write b rest := readAs_eq_ok_iff.mpr ⟨back b, h.read_write (back b) rest, hmake b⟩
  read_front hwrite hrest := by
    obtain ⟨missing, hpos, hle, hread⟩ := h.read_front hwrite hrest
    exact ⟨missing, hpos, hle, readAs_eq_error hread⟩
  of_read hread := by
    obtain ⟨a, hpart, rfl⟩ := readAs_eq_ok_iff.mp hread
    simp only [Function.comp_apply, hback]
    exact h.of_read hpart

end Parts

/-! ### Byte strings and words -/

theorem take_selfDelimiting (n : Nat) : SelfDelimiting Bytes.toList (take n) := by
  apply SelfDelimiting.of_read_eq_ok_iff
  · intro input a rest
    rw [← Bytes.read?_eq_some_iff]
    unfold take
    split
    · next result hread => rw [hread, Except.ok.injEq, Option.some.injEq]
    · next hread => simp only [hread, reduceCtorEq]
  · intro a front back hwrite hback
    have hlen : front.length + back.length = n := by
      rw [← List.length_append, ← hwrite, a.length_toList]
    have hshort : ¬ n ≤ front.length := by
      rw [← hlen, not_le]
      exact Nat.lt_add_of_pos_right (List.length_pos_iff.mpr hback)
    refine ⟨n - front.length, Nat.sub_pos_of_lt (not_le.mp hshort), ?_, ?_⟩
    · rw [← hlen, Nat.add_sub_cancel_left]
    · simp only [take, Bytes.read?, dif_neg hshort]

theorem takeWord_eq_ok_iff {order : ByteOrder} {input rest : List UInt8} {word : UInt16} :
    takeWord order input = .ok (word, rest) ↔ input = order.split word ++ rest := by
  constructor
  · intro h
    unfold takeWord at h
    split at h
    · next first second rest' =>
      cases h
      rw [ByteOrder.split_join]
      rfl
    · cases h
  · rintro rfl
    obtain ⟨first, second, hsplit, hjoin⟩ := order.exists_split word
    rw [hsplit, ← hjoin]
    rfl

theorem takeWord_selfDelimiting (order : ByteOrder) :
    SelfDelimiting order.split (takeWord order) := by
  apply SelfDelimiting.of_read_eq_ok_iff takeWord_eq_ok_iff
  intro word front back hwrite hback
  obtain ⟨first, second, hsplit, -⟩ := order.exists_split word
  rw [hsplit] at hwrite
  have hlen := congrArg List.length hwrite
  match front with
  | [] => exact ⟨2, Nat.two_pos, hlen.le, rfl⟩
  | [_] => exact ⟨1, Nat.one_pos, (Nat.succ.inj hlen).le, rfl⟩
  | _ :: _ :: front =>
    simp only [List.cons_append, List.cons.injEq, List.nil_eq, List.append_eq_nil_iff] at hwrite
    exact absurd hwrite.2.2.2 hback

/-! ### Ports -/

/-- The form in which a port is written, by its number: two bytes with the low one first; or,
    where it can be shortened, one byte below 251, and from there on 251 with two bytes in the
    order of the layout. -/
inductive PortForm : Layout → Nat → List UInt8 → Prop where
  | fixed (high low : UInt8) : PortForm .fixed (256 * high.toNat + low.toNat) [low, high]
  | short (order : ByteOrder) (byte : UInt8) (below : byte.toNat < 251) :
      PortForm (.shortened order) byte.toNat [byte]
  | longBigEndian (high low : UInt8) (above : 251 ≤ 256 * high.toNat + low.toNat) :
      PortForm (.shortened .bigEndian) (256 * high.toNat + low.toNat) [251, high, low]
  | longLittleEndian (high low : UInt8) (above : 251 ≤ 256 * high.toNat + low.toNat) :
      PortForm (.shortened .littleEndian) (256 * high.toNat + low.toNat) [251, low, high]

section Ports

variable {order : ByteOrder}

/-- A port below 251 fits into a byte. -/
theorem toNat_byte_of_short {port : UInt16} (h : port.toNat < 251) :
    (UInt8.ofNat port.toNat).toNat = port.toNat :=
  Nat.mod_eq_of_lt (h.trans (by decide))

theorem encodePort_short {port : UInt16} (h : port.toNat < 251) :
    encodePort (.shortened order) port = [UInt8.ofNat port.toNat] :=
  if_pos h

theorem encodePort_long {port : UInt16} (h : ¬ port.toNat < 251) :
    encodePort (.shortened order) port = 251 :: order.split port :=
  if_neg h

theorem exists_high_low (word : UInt16) :
    ∃ high low : UInt8, word.toNat = 256 * high.toNat + low.toNat ∧
      ByteOrder.bigEndian.split word = [high, low] ∧
      ByteOrder.littleEndian.split word = [low, high] := by
  have hword := word.toNat_lt
  refine ⟨UInt8.ofNat (word.toNat / 256), UInt8.ofNat (word.toNat % 256), ?_, rfl, rfl⟩
  simp only [UInt8.toNat_ofNat']
  omega

theorem encodePort_form (layout : Layout) (port : UInt16) :
    PortForm layout port.toNat (encodePort layout port) := by
  obtain ⟨high, low, hport, hbig, hlittle⟩ := exists_high_low port
  match layout with
  | .fixed =>
    rw [encodePort, hlittle, hport]
    exact .fixed high low
  | .shortened order =>
    by_cases hshort : port.toNat < 251
    · have hbyte := toNat_byte_of_short hshort
      have hform := PortForm.short order (UInt8.ofNat port.toNat) (hbyte.symm ▸ hshort)
      rw [hbyte] at hform
      rw [encodePort_short hshort]
      exact hform
    · rw [encodePort_long hshort]
      rw [hport, Nat.not_lt] at hshort
      cases order with
      | bigEndian =>
        rw [hbig, hport]
        exact .longBigEndian high low hshort
      | littleEndian =>
        rw [hlittle, hport]
        exact .longLittleEndian high low hshort

theorem takePort_short {lead : UInt8} (h : lead < 251) (rest : List UInt8) :
    takePort (.shortened order) (lead :: rest) = .ok (UInt16.ofNat lead.toNat, rest) :=
  if_pos h

theorem takePort_long (rest : List UInt8) :
    takePort (.shortened order) (251 :: rest) = takeWord order rest := rfl

/-- The two forms of a port.  The long one is there for every port. -/
theorem takePort_eq_ok_iff {input rest : List UInt8} {port : UInt16} :
    takePort (.shortened order) input = .ok (port, rest) ↔
      (port.toNat < 251 ∧ input = UInt8.ofNat port.toNat :: rest) ∨
        input = 251 :: (order.split port ++ rest) := by
  constructor
  · intro h
    cases input with
    | nil => cases h
    | cons lead following =>
      by_cases hshort : lead < 251
      · rw [takePort_short hshort] at h
        cases h
        have hlead : (UInt16.ofNat lead.toNat).toNat = lead.toNat :=
          Nat.mod_eq_of_lt (lead.toNat_lt.trans (by decide))
        rw [hlead, UInt8.ofNat_toNat]
        exact .inl ⟨UInt8.lt_iff_toNat_lt.mp hshort, rfl⟩
      · by_cases hlong : lead = 251
        · rw [hlong, takePort_long, takeWord_eq_ok_iff] at h
          exact .inr (by rw [hlong, h])
        · simp only [takePort, if_neg hshort, if_neg hlong, reduceCtorEq] at h
  · rintro (⟨hport, rfl⟩ | rfl)
    · have hlead := toNat_byte_of_short hport
      have hshort : UInt8.ofNat port.toNat < 251 := by
        rw [UInt8.lt_iff_toNat_lt, hlead]
        exact hport
      rw [takePort_short hshort, hlead, UInt16.ofNat_toNat]
    · rw [takePort_long]
      exact takeWord_eq_ok_iff.mpr rfl

/-- The long form of a small port is longer than the one in which it is written, so that only
    the latter is as short as it can be. -/
theorem shortened_selfDelimiting (order : ByteOrder) :
    SelfDelimiting (encodePort (.shortened order)) (takePort (.shortened order)) where
  read_write port rest := by
    rw [takePort_eq_ok_iff]
    by_cases hport : port.toNat < 251
    · exact .inl ⟨hport, by rw [encodePort_short hport]; rfl⟩
    · exact .inr (by rw [encodePort_long hport]; rfl)
  read_front {port front back} hwrite hback := by
    cases front with
    | nil => exact ⟨1, Nat.one_pos, List.length_pos_iff.mpr hback, rfl⟩
    | cons lead front =>
      by_cases hport : port.toNat < 251
      · rw [encodePort_short hport] at hwrite
        simp only [List.cons_append, List.cons.injEq, List.nil_eq, List.append_eq_nil_iff]
          at hwrite
        exact absurd hwrite.2.2 hback
      · rw [encodePort_long hport, List.cons_append, List.cons.injEq] at hwrite
        obtain ⟨rfl, hword⟩ := hwrite
        exact (takeWord_selfDelimiting order).read_front hword hback
  of_read {input port rest} hread := by
    obtain ⟨hport, rfl⟩ | rfl := takePort_eq_ok_iff.mp hread
    · refine ⟨[UInt8.ofNat port.toNat], rfl, ?_⟩
      rw [encodePort_short hport]
      exact ⟨le_rfl, fun _ => rfl⟩
    · refine ⟨251 :: order.split port, rfl, ?_⟩
      by_cases hport : port.toNat < 251
      · obtain ⟨first, second, hsplit, -⟩ := order.exists_split port
        rw [encodePort_short hport, hsplit]
        exact ⟨(by decide : 1 ≤ 3), fun h => absurd h (by decide : ¬ 3 ≤ 1)⟩
      · rw [encodePort_long hport]
        exact ⟨le_rfl, fun _ => rfl⟩

theorem takePort_selfDelimiting (layout : Layout) :
    SelfDelimiting (encodePort layout) (takePort layout) := by
  cases layout with
  | fixed => exact takeWord_selfDelimiting .littleEndian
  | shortened order => exact shortened_selfDelimiting order

end Ports

/-! ### Identifiers and contacts -/

theorem decodeId_selfDelimiting : SelfDelimiting encodeId decodeId :=
  (take_selfDelimiting 20).as NodeId.mk NodeId.bytes (fun _ => rfl) (fun _ => rfl)

/-- The parts of a contact in the order in which they are written. -/
def parts (c : Contact) : (NodeId × Bytes 4) × UInt16 :=
  ((c.id, c.endpoint.ip), c.endpoint.port)

def ofParts (v : (NodeId × Bytes 4) × UInt16) : Contact :=
  ⟨v.1.1, ⟨v.1.2, v.2⟩⟩

theorem encodeContact_eq (layout : Layout) :
    encodeContact layout =
      writeBoth (writeBoth encodeId Bytes.toList) (encodePort layout) ∘ parts := rfl

theorem decodeContact_eq (layout : Layout) :
    decodeContact layout =
      readAs ofParts (readBoth (readBoth decodeId (take 4)) (takePort layout)) := by
  funext input
  simp only [decodeContact, readAs, readBoth, bind_assoc, pure_bind, ofParts]

theorem decodeContact_selfDelimiting (layout : Layout) :
    SelfDelimiting (encodeContact layout) (decodeContact layout) := by
  have hparts := (decodeId_selfDelimiting.both (take_selfDelimiting 4)).both
    (takePort_selfDelimiting layout)
  rw [encodeContact_eq, decodeContact_eq]
  exact hparts.as ofParts parts (fun _ => rfl) (fun _ => rfl)

theorem encodeContact_prefixFree {layout : Layout} {c d : Contact}
    (h : encodeContact layout c <+: encodeContact layout d) : c = d :=
  (decodeContact_selfDelimiting layout).prefixFree h

/-- A contact is its identifier, its address and its port, one behind the other. -/
theorem encodeContact_layout (layout : Layout) (c : Contact) :
    ∃ port, PortForm layout c.endpoint.port.toNat port ∧
      encodeContact layout c = c.id.toBytes ++ c.endpoint.ip.toList ++ port :=
  ⟨_, encodePort_form layout c.endpoint.port, rfl⟩

/-- **Stored values.**  A contact is written by the layout.  In every layout an identifier or a
    contact is read from what was written of it, whatever follows, and exactly this is left.  If
    the end of it is missing, then that is the error.  Whatever can be read begins with a form
    that is at least as long as the one in which the value would be written, and from that one
    the same value is read. -/
theorem stored_exact (layout : Layout) :
    (∀ c, ∃ port, PortForm layout c.endpoint.port.toNat port ∧
      encodeContact layout c = c.id.toBytes ++ c.endpoint.ip.toList ++ port) ∧
      SelfDelimiting encodeId decodeId ∧
      SelfDelimiting (encodeContact layout) (decodeContact layout) ∧
      (∀ id, decodeId (encodeId id) = .ok (id, [])) ∧
      ∀ c, decodeContact layout (encodeContact layout c) = .ok (c, []) := by
  have hid := decodeId_selfDelimiting
  have hcontact := decodeContact_selfDelimiting layout
  exact ⟨encodeContact_layout layout, hid, hcontact, hid.read_write_self,
    hcontact.read_write_self⟩

/-- The port 5 in its long form, which is read but not written. -/
example :
    let c : Contact := ⟨⟨Bytes.fill 20 7⟩, ⟨Bytes.fill 4 1, 5⟩⟩
    let front := List.replicate 20 7 ++ List.replicate 4 1
    decodeContact (.shortened .bigEndian) (front ++ [251, 0, 5, 9]) = .ok (c, [9]) ∧
      encodeContact (.shortened .bigEndian) c = front ++ [5] := by
  decide

end Kademlia.Stored
