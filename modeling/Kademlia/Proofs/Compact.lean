/-
  Kademlia/Proofs/Compact.lean
  ============================
  **The compact form is a bijection.**

  An entry is written as twenty bytes, four octets and two bytes, and read as twenty
  bytes, a word of 32 bits and one of sixteen.  `Contact.ofCompact?_eq_some_iff` says
  that the two agree on every entry.  A buffer is entries and nothing else, and so the
  contacts that are read from one are the only contacts that are written as it
  (`decode_eq_ok_iff`).

  However a buffer is cut into pieces, reading sees the bytes one after the other
  (`takeAcross?_of_le`), so nothing but the whole buffer decides what is read.

  Reading need not count the entries.  Going on for as long as a byte remains
  (`ReadsWhile`) finds the same contacts, and ends because nothing is left
  (`decodePieces_eq_ok_iff_readsWhile`).
-/
import Kademlia.Contact.Compact
import Kademlia.Proofs.Bits

namespace Kademlia

/-! ### Words -/

namespace ByteOrder

theorem split_join (order : ByteOrder) (first second : UInt8) :
    order.split (order.join first second) = [first, second] := by
  have hfirst := first.toNat_lt
  have hsecond := second.toNat_lt
  cases order with
  | bigEndian =>
    simp only [split, join, UInt16.toNat_ofNat', List.cons.injEq, and_true,
      UInt8.ofNat_eq_iff_mod_eq_toNat]
    omega
  | littleEndian =>
    simp only [split, join, UInt16.toNat_ofNat', List.cons.injEq, and_true,
      UInt8.ofNat_eq_iff_mod_eq_toNat]
    omega

/-- A word is two bytes, and they make up that word again. -/
theorem exists_split (order : ByteOrder) (word : UInt16) :
    ∃ first second, order.split word = [first, second] ∧ order.join first second = word := by
  have hword := word.toNat_lt
  cases order with
  | bigEndian =>
    refine ⟨_, _, rfl, ?_⟩
    simp only [join, UInt8.toNat_ofNat', UInt16.ofNat_eq_iff_mod_eq_toNat]
    omega
  | littleEndian =>
    refine ⟨_, _, rfl, ?_⟩
    simp only [join, UInt8.toNat_ofNat', UInt16.ofNat_eq_iff_mod_eq_toNat]
    omega

end ByteOrder

/-- The octets of a word are the bytes that it was read from. -/
theorem toList_octets_joinFour (a b c d : UInt8) :
    (octets (joinFour a b c d)).toList = [a, b, c, d] := by
  have ha := a.toNat_lt
  have hb := b.toNat_lt
  have hc := c.toNat_lt
  have hd := d.toNat_lt
  simp only [octets, joinFour, UInt32.toNat_ofNat', List.cons.injEq, and_true,
    UInt8.ofNat_eq_iff_mod_eq_toNat]
  omega

theorem exists_toList_four (ip : Bytes 4) : ∃ a b c d, ip.toList = [a, b, c, d] := by
  obtain ⟨bytes, hlen⟩ := ip
  rcases bytes with _ | ⟨a, _ | ⟨b, _ | ⟨c, _ | ⟨d, _ | ⟨e, rest⟩⟩⟩⟩⟩
  · cases hlen
  · cases hlen
  · cases hlen
  · cases hlen
  · exact ⟨a, b, c, d, rfl⟩
  · simp at hlen

/-! ### Byte strings at the front of an input -/

theorem Bytes.read?_eq_some_iff {n : Nat} {input rest : List UInt8} {a : Bytes n} :
    Bytes.read? n input = some (a, rest) ↔ input = a.toList ++ rest := by
  have hlen := a.length_toList
  constructor
  · intro h
    simp only [read?] at h
    split at h
    · simp only [Option.some.injEq, Prod.mk.injEq] at h
      obtain ⟨rfl, rfl⟩ := h
      exact (List.take_append_drop n input).symm
    · cases h
  · rintro rfl
    have hle : n ≤ (a.toList ++ rest).length := by
      rw [List.length_append, hlen]
      exact Nat.le_add_right n rest.length
    have htake : (a.toList ++ rest).take n = a.toList := List.take_left' hlen
    have hdrop : (a.toList ++ rest).drop n = rest := List.drop_left' hlen
    simp only [read?, dif_pos hle, htake, hdrop]

namespace Contact

/-! ### Entries -/

theorem length_toCompact (c : Contact) : c.toCompact.length = 26 := by
  obtain ⟨high, low, hport, -⟩ := ByteOrder.bigEndian.exists_split c.endpoint.port
  simp only [toCompact, List.length_append, NodeId.length_toBytes, c.endpoint.ip.length_toList,
    hport, List.length_cons, List.length_nil]

/-- Reading an entry and writing a contact undo each other. -/
theorem ofCompact?_eq_some_iff {entry : List UInt8} {c : Contact} :
    ofCompact? entry = some c ↔ c.toCompact = entry := by
  constructor
  · intro h
    unfold ofCompact? at h
    split at h
    · next id a b c' d high low hread =>
      obtain rfl := Option.some.inj h
      rw [Bytes.read?_eq_some_iff.mp hread]
      simp only [toCompact, NodeId.toBytes, toList_octets_joinFour, ByteOrder.split_join,
        List.append_assoc, List.cons_append, List.nil_append]
    · cases h
  · rintro rfl
    obtain ⟨⟨id⟩, ⟨ip, port⟩⟩ := c
    obtain ⟨a, b, c, d, hip⟩ := exists_toList_four ip
    obtain ⟨high, low, hport, hjoin⟩ := ByteOrder.bigEndian.exists_split port
    have hoctets : octets (joinFour a b c d) = ip :=
      Bytes.ext ((toList_octets_joinFour a b c d).trans hip.symm)
    have hread : Bytes.read? 20 (toCompact ⟨⟨id⟩, ⟨ip, port⟩⟩) =
        some (id, [a, b, c, d, high, low]) := by
      rw [Bytes.read?_eq_some_iff]
      simp only [toCompact, NodeId.toBytes, hip, hport, List.append_assoc, List.cons_append,
        List.nil_append]
    simp only [ofCompact?, hread, hoctets, hjoin]

theorem toCompact_injective {c d : Contact} (h : c.toCompact = d.toCompact) : c = d :=
  Option.some.inj ((ofCompact?_eq_some_iff.mpr h).symm.trans (ofCompact?_eq_some_iff.mpr rfl))

/-- Any 26 bytes are the entry of a contact. -/
theorem exists_toCompact {entry : List UInt8} (h : entry.length = 26) :
    ∃ c : Contact, c.toCompact = entry := by
  have hid : (entry.take 20).length = 20 := by simp [h]
  have hip : ((entry.drop 20).take 4).length = 4 := by simp [h]
  have hport : ((entry.drop 20).drop 4).length = 2 := by simp [h]
  obtain ⟨high, low, hwords⟩ := List.length_eq_two.mp hport
  refine ⟨⟨⟨entry.take 20, hid⟩, ⟨⟨(entry.drop 20).take 4, hip⟩,
    ByteOrder.bigEndian.join high low⟩⟩, ?_⟩
  simp only [toCompact, NodeId.toBytes, ByteOrder.split_join, ← hwords]
  rw [List.append_assoc, List.take_append_drop, List.take_append_drop]

end Contact

namespace Compact

/-! ### Written buffers -/

theorem length_encode (cs : List Contact) : (encode cs).length = 26 * cs.length := by
  induction cs with
  | nil => rfl
  | cons c rest ih =>
    change (c.toCompact ++ encode rest).length = _
    simp only [List.length_append, c.length_toCompact, ih, List.length_cons]
    omega

theorem dvd_length_encode (cs : List Contact) : 26 ∣ (encode cs).length :=
  ⟨cs.length, length_encode cs⟩

/-- Different contacts are written differently. -/
theorem encode_injective {cs ds : List Contact} (h : encode cs = encode ds) : cs = ds := by
  induction cs generalizing ds with
  | nil =>
    have hlen := congrArg List.length h
    simp only [length_encode, List.length_nil] at hlen
    exact (List.length_eq_zero_iff.mp (by omega)).symm
  | cons c cs ih =>
    cases ds with
    | nil =>
      have hlen := congrArg List.length h
      simp [length_encode] at hlen
    | cons d ds =>
      have hsplit : c.toCompact ++ encode cs = d.toCompact ++ encode ds := h
      obtain ⟨hhead, htail⟩ :=
        List.append_inj hsplit (c.length_toCompact.trans d.length_toCompact.symm)
      rw [Contact.toCompact_injective hhead, ih htail]

/-! ### Buffers in pieces -/

/-- A read across the borders of pieces takes the front of the whole buffer. -/
theorem takeAcross?_of_le {count : Nat} {pieces : List (List UInt8)}
    (h : count ≤ pieces.flatten.length) :
    ∃ rest, takeAcross? count pieces = some (pieces.flatten.take count, rest) ∧
      rest.flatten = pieces.flatten.drop count := by
  induction pieces generalizing count with
  | nil =>
    obtain rfl : count = 0 := Nat.le_zero.mp h
    exact ⟨[], rfl, rfl⟩
  | cons piece pieces ih =>
    simp only [List.flatten_cons, List.length_append] at h ⊢
    by_cases hle : count ≤ piece.length
    · refine ⟨piece.drop count :: pieces, ?_, ?_⟩
      · rw [takeAcross?, if_pos hle, List.take_append_of_le_length hle]
      · rw [List.flatten_cons, List.drop_append_of_le_length hle]
    · have hpiece : piece.length ≤ count := Nat.le_of_not_le hle
      have hrest : count - piece.length ≤ pieces.flatten.length := by omega
      obtain ⟨rest, htake, hdrop⟩ := ih hrest
      refine ⟨rest, ?_, ?_⟩
      · rw [takeAcross?, if_neg hle, htake, Option.map_some, List.take_append,
          List.take_of_length_le hpiece]
      · rw [hdrop, List.drop_append, List.drop_of_length_le hpiece, List.nil_append]

theorem takeAcross?_eq_some {count : Nat} {pieces rest : List (List UInt8)} {taken : List UInt8}
    (h : takeAcross? count pieces = some (taken, rest)) :
    pieces.flatten = taken ++ rest.flatten := by
  induction pieces generalizing count taken with
  | nil =>
    cases count with
    | zero =>
      cases h
      rfl
    | succ count => cases h
  | cons piece pieces ih =>
    by_cases hle : count ≤ piece.length
    · rw [takeAcross?, if_pos hle] at h
      cases h
      rw [List.flatten_cons, List.flatten_cons, ← List.append_assoc, List.take_append_drop]
    · rw [takeAcross?, if_neg hle] at h
      obtain ⟨_, htake, heq⟩ := Option.map_eq_some_iff.mp h
      cases heq
      rw [List.flatten_cons, ih htake, List.append_assoc]

/-- The loop that reads one entry more for as long as a byte remains: the pieces that it finds,
    and the contacts that it has read when it ends. -/
inductive ReadsWhile : List (List UInt8) → List Contact → Prop where
  | done {pieces : List (List UInt8)} (hnone : pieces.flatten = []) : ReadsWhile pieces []
  | entry {pieces rest : List (List UInt8)} {entry : List UInt8} {c : Contact} {cs : List Contact}
      (hremains : pieces.flatten ≠ []) (htake : takeAcross? entryLength pieces = some (entry, rest))
      (hread : Contact.ofCompact? entry = some c) (hrest : ReadsWhile rest cs) :
      ReadsWhile pieces (c :: cs)

/-- Every byte was read, and stands in one of the contacts. -/
theorem ReadsWhile.encode_eq {pieces : List (List UInt8)} {cs : List Contact}
    (h : ReadsWhile pieces cs) : encode cs = pieces.flatten := by
  induction h with
  | done hnone => exact hnone.symm
  | entry _ htake hread _ ih =>
    rw [takeAcross?_eq_some htake, ← Contact.ofCompact?_eq_some_iff.mp hread, ← ih]
    rfl

/-- As many entries as make up a buffer are read, and then nothing remains. -/
theorem readEntries?_of_length {count : Nat} {pieces : List (List UInt8)}
    (h : pieces.flatten.length = 26 * count) :
    ∃ cs, readEntries? count pieces = some cs ∧ ReadsWhile pieces cs := by
  induction count generalizing pieces with
  | zero => exact ⟨[], rfl, .done (List.length_eq_zero_iff.mp h)⟩
  | succ count ih =>
    have hentry : entryLength ≤ pieces.flatten.length := by
      rw [h, entryLength]
      omega
    have hsome : pieces.flatten ≠ [] :=
      List.length_pos_iff.mp (Nat.lt_of_lt_of_le (by decide) hentry)
    have hlen : (pieces.flatten.take entryLength).length = 26 :=
      List.length_take_of_le hentry
    obtain ⟨rest, htake, hrest⟩ := takeAcross?_of_le hentry
    have hremains : rest.flatten.length = 26 * count := by
      rw [hrest, List.length_drop, h, entryLength]
      omega
    obtain ⟨c, hc⟩ := Contact.exists_toCompact hlen
    have hone := Contact.ofCompact?_eq_some_iff.mpr hc
    obtain ⟨cs, hread, hloop⟩ := ih hremains
    refine ⟨c :: cs, ?_, .entry hsome htake hone hloop⟩
    simp only [readEntries?, htake, hone, hread]

theorem foldr_length (pieces : List (List UInt8)) :
    pieces.foldr (fun piece total => piece.length + total) 0 = pieces.flatten.length := by
  induction pieces with
  | nil => rfl
  | cons piece rest ih => simp only [List.foldr_cons, ih, List.flatten_cons, List.length_append]

/-! ### Whole buffers -/

/-- A buffer of whole entries is read to its end. -/
theorem decodePieces_of_dvd {pieces : List (List UInt8)} (h : 26 ∣ pieces.flatten.length) :
    ∃ cs, decodePieces pieces = .ok cs ∧ ReadsWhile pieces cs := by
  have hmod : pieces.flatten.length % entryLength = 0 := Nat.mod_eq_zero_of_dvd h
  obtain ⟨cs, hread, hloop⟩ := readEntries?_of_length (Nat.mul_div_cancel' h).symm
  refine ⟨cs, ?_, hloop⟩
  simp only [decodePieces, foldr_length, if_pos hmod]
  rw [show pieces.flatten.length / entryLength = pieces.flatten.length / 26 from rfl, hread]

theorem decodePieces_of_not_dvd {pieces : List (List UInt8)}
    (h : ¬ 26 ∣ pieces.flatten.length) :
    decodePieces pieces = .error (.length pieces.flatten.length) := by
  have hmod : ¬ pieces.flatten.length % entryLength = 0 := fun hzero =>
    h (Nat.dvd_of_mod_eq_zero hzero)
  simp only [decodePieces, foldr_length, if_neg hmod]

/-- The contacts that are read are the ones that are written as the buffer. -/
theorem decodePieces_eq_ok_iff {pieces : List (List UInt8)} {cs : List Contact} :
    decodePieces pieces = .ok cs ↔ encode cs = pieces.flatten := by
  by_cases hdvd : 26 ∣ pieces.flatten.length
  · obtain ⟨ds, hdecode, hloop⟩ := decodePieces_of_dvd hdvd
    rw [hdecode, ← hloop.encode_eq, Except.ok.injEq]
    constructor
    · rintro rfl
      rfl
    · exact fun h => (encode_injective h).symm
  · simp only [decodePieces_of_not_dvd hdvd, reduceCtorEq, false_iff]
    intro h
    apply hdvd
    rw [← h]
    exact dvd_length_encode cs

/-- Counting the entries beforehand or looking each time whether a byte remains is the same. -/
theorem decodePieces_eq_ok_iff_readsWhile {pieces : List (List UInt8)} {cs : List Contact} :
    decodePieces pieces = .ok cs ↔ ReadsWhile pieces cs := by
  constructor
  · intro h
    have hdvd : 26 ∣ pieces.flatten.length := by
      rw [← decodePieces_eq_ok_iff.mp h]
      exact dvd_length_encode cs
    obtain ⟨ds, hdecode, hloop⟩ := decodePieces_of_dvd hdvd
    rw [h] at hdecode
    cases hdecode
    exact hloop
  · exact fun hloop => decodePieces_eq_ok_iff.mpr hloop.encode_eq

/-- The only error is that of a buffer which is not made of whole entries. -/
theorem decodePieces_eq_error_iff {pieces : List (List UInt8)} {e : DecodeError} :
    decodePieces pieces = .error e ↔
      e = .length pieces.flatten.length ∧ ¬ 26 ∣ pieces.flatten.length := by
  by_cases hdvd : 26 ∣ pieces.flatten.length
  · obtain ⟨cs, hdecode, -⟩ := decodePieces_of_dvd hdvd
    simp only [hdecode, reduceCtorEq, hdvd, not_true_eq_false, and_false]
  · simp only [decodePieces_of_not_dvd hdvd, Except.error.injEq, hdvd, not_false_eq_true,
      and_true, eq_comm]

/-- Where a buffer is cut makes no difference. -/
theorem decodePieces_eq_decode (pieces : List (List UInt8)) :
    decodePieces pieces = decode pieces.flatten := by
  have hsame : [pieces.flatten].flatten = pieces.flatten := List.flatten_singleton
  rcases h : decodePieces pieces with e | cs
  · rw [decodePieces_eq_error_iff, ← hsame, ← decodePieces_eq_error_iff] at h
    exact h.symm
  · rw [decodePieces_eq_ok_iff, ← hsame, ← decodePieces_eq_ok_iff] at h
    exact h.symm

theorem decode_eq_ok_iff {buffer : List UInt8} {cs : List Contact} :
    decode buffer = .ok cs ↔ encode cs = buffer := by
  rw [decode, decodePieces_eq_ok_iff, List.flatten_singleton]

theorem decode_eq_error_iff {buffer : List UInt8} {e : DecodeError} :
    decode buffer = .error e ↔ e = .length buffer.length ∧ ¬ 26 ∣ buffer.length := by
  rw [decode, decodePieces_eq_error_iff, List.flatten_singleton]

/-- **The compact form.**  Contacts are written as 26 bytes each and read from these as
    they were.  A buffer is read exactly if its length is a multiple of 26, and what is
    read is written as that buffer again; any other buffer is refused with its length.
    In how many pieces it arrives makes no difference. -/
theorem compact_exact :
    (∀ cs : List Contact, (encode cs).length = 26 * cs.length ∧ decode (encode cs) = .ok cs) ∧
    (∀ (buffer : List UInt8) (cs : List Contact), decode buffer = .ok cs ↔ encode cs = buffer) ∧
    (∀ buffer : List UInt8, (∃ cs, decode buffer = .ok cs) ↔ 26 ∣ buffer.length) ∧
    (∀ (buffer : List UInt8) (e : DecodeError),
      decode buffer = .error e ↔ e = .length buffer.length ∧ ¬ 26 ∣ buffer.length) ∧
    ∀ pieces : List (List UInt8), decodePieces pieces = decode pieces.flatten := by
  refine ⟨?_, fun _ _ => decode_eq_ok_iff, ?_, fun _ _ => decode_eq_error_iff,
    decodePieces_eq_decode⟩
  · intro cs
    exact ⟨length_encode cs, decode_eq_ok_iff.mpr rfl⟩
  · intro buffer
    rcases h : decode buffer with e | cs
    · simp [(decode_eq_error_iff.mp h).2]
    · rw [← decode_eq_ok_iff.mp h]
      simp only [dvd_length_encode, iff_true]
      exact ⟨cs, rfl⟩

end Compact

end Kademlia
