/-
  Kademlia/Bytes/Hex.lean
  =======================
  **Hexadecimal text.**

  A byte is written as two digits, the high half first.  Writing uses lower-case
  letters; reading accepts both cases, and refuses a text with an odd number of
  characters or with anything that is not a digit.
-/

namespace Kademlia.Hex

/-! ### Digits -/

/-- The digit that stands for a value below sixteen. -/
def digit (value : Nat) : Char :=
  if value < 10 then Char.ofNat (48 + value) else Char.ofNat (87 + value)

/-- The value of a digit of either case. -/
def digitValue? (c : Char) : Option Nat :=
  if '0' ≤ c ∧ c ≤ '9' then some (c.toNat - 48)
  else if 'a' ≤ c ∧ c ≤ 'f' then some (c.toNat - 87)
  else if 'A' ≤ c ∧ c ≤ 'F' then some (c.toNat - 55)
  else none

/-! ### Byte lists -/

def encode : List UInt8 → List Char
  | [] => []
  | byte :: rest => digit (byte.toNat / 16) :: digit (byte.toNat % 16) :: encode rest

def decode? : List Char → Option (List UInt8)
  | [] => some []
  | [_] => none
  | high :: low :: rest =>
    match digitValue? high, digitValue? low, decode? rest with
    | some h, some l, some bytes => some (UInt8.ofNat (16 * h + l) :: bytes)
    | _, _, _ => none

def text (bytes : List UInt8) : String :=
  String.ofList (encode bytes)

def bytes? (s : String) : Option (List UInt8) :=
  decode? s.toList

end Kademlia.Hex
