import WitnessSigning.Error

/-!
# Hexadecimal text

Each octet is written as two digits, in lower case; digits are read in either case. Reading
refuses a text of odd length first, and after that names the first octet that is no digit.
-/

namespace WitnessSigning.Hex

/-- The digit of a value below 16. -/
def digit (v : Nat) : UInt8 :=
  UInt8.ofNat (if v < 10 then 48 + v else 87 + v)

/-- The value of a digit in either case. -/
def value? (c : UInt8) : Option Nat :=
  let v := c.toNat
  if 48 ≤ v ∧ v ≤ 57 then some (v - 48)
  else if 97 ≤ v ∧ v ≤ 102 then some (v - 87)
  else if 65 ≤ v ∧ v ≤ 70 then some (v - 55)
  else none

/-- The value of a digit, or the octet as the cause of failure. -/
def value (c : UInt8) : Except Error Nat :=
  match value? c with
  | some v => .ok v
  | none => .error (.hexDigit c)

/-- Writes each octet as two lower case digits. -/
def encode (bs : Bytes) : Text :=
  bs.flatMap fun b => [digit (b.toNat / 16), digit (b.toNat % 16)]

/-- Reads pairs of digits behind the octets already read, which come latest first. -/
def decodePairs (done : Bytes) : Text → Except Error Bytes
  | hi :: lo :: rest => do
    let h ← value hi
    let l ← value lo
    decodePairs (UInt8.ofNat (16 * h + l) :: done) rest
  | _ => .ok done.reverse

/-- Reads the octets that a text of digits stands for. -/
def decode (text : Text) : Except Error Bytes :=
  if text.length % 2 = 0 then decodePairs [] text else .error .oddHex

end WitnessSigning.Hex
