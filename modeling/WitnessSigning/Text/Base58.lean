import WitnessSigning.Error
import WitnessSigning.Hash.Sha256

/-!
# Base58Check

A payload and the first four octets of its double SHA-256 are read as one number and written in
base 58, in an alphabet without look-alike characters. Zero octets in front do not show in a
number, so each is written as the zero digit `1`. Reading names the first octet outside the
alphabet; a text that passes is refused if it cannot hold a checksum or holds another one.

A number is held as its digits in some base, the least significant one first and without leading
zeros at the other end. It grows by one step, `WitnessSigning.Radix.mulAdd`: multiply by a
factor and add a digit, in one pass that carries from digit to digit. A number read in one base
and held in another is a fold of that step.
-/

namespace WitnessSigning.Radix

/-- The number that digits stand for. -/
def value (base : Nat) : List Nat → Nat
  | [] => 0
  | d :: ds => d + base * value base ds

/-- The digits of a carry, at most `fuel` many; as many as the carry itself are always enough. -/
def carryDigits (base : Nat) : Nat → Nat → List Nat
  | 0, _ => []
  | fuel + 1, carry =>
    if carry = 0 then [] else carry % base :: carryDigits base fuel (carry / base)

/-- **Multiply and add**: the digits of `factor * number + carry`. -/
def mulAdd (base factor : Nat) (carry : Nat) : List Nat → List Nat
  | [] => carryDigits base carry carry
  | d :: ds =>
    (carry + d * factor) % base :: mulAdd base factor ((carry + d * factor) / base) ds

end WitnessSigning.Radix

namespace WitnessSigning.Base58

/-- The digits in the order of their values. -/
def alphabet : Text :=
  "123456789ABCDEFGHJKLMNPQRSTUVWXYZabcdefghijkmnopqrstuvwxyz".toList.map fun c =>
    UInt8.ofNat c.toNat

/-- The zero digit. -/
def zeroDigit : UInt8 := 49

/-- The first four octets of the double hash. -/
def checksum (payload : Bytes) : Bytes :=
  (doubleSha256 payload).toList.take 4

/-- The value of a digit, or the octet as the cause of failure. -/
def value (c : UInt8) : Except Error Nat :=
  match alphabet.idxOf? c with
  | some v => .ok v
  | none => .error (.base58Digit c)

/-- Takes one digit of a text into the octets of the number read so far. -/
def readDigit (octets : List Nat) (c : UInt8) : Except Error (List Nat) := do
  let v ← value c
  return Radix.mulAdd 256 58 v octets

/-- Takes one octet into the base 58 digits of the number read so far. -/
def writeOctet (digits : List Nat) (b : UInt8) : List Nat :=
  Radix.mulAdd 58 256 b.toNat digits

/-- Octets as a Base58 text, without a checksum. -/
def encodePlain (bs : Bytes) : Text :=
  (bs.takeWhile (· == 0)).map (fun _ => zeroDigit) ++
    ((bs.foldl writeOctet []).reverse.map fun d => alphabet.getD d zeroDigit)

/-- The octets of a Base58 text, without looking for a checksum. -/
def decodePlain (text : Text) : Except Error Bytes := do
  let octets ← text.foldlM readDigit []
  return (text.takeWhile (· == zeroDigit)).map (fun _ => 0) ++ octets.reverse.map UInt8.ofNat

/-- **Base58Check**: a payload with its checksum as a Base58 text. -/
def encode (payload : Bytes) : Text :=
  encodePlain (payload ++ checksum payload)

/-- Reads a Base58Check text back to its payload. -/
def decode (text : Text) : Except Error Bytes := do
  let octets ← decodePlain text
  let size := octets.length - 4
  if octets.length < 4 then
    throw .base58TooShort
  else if octets.drop size = checksum (octets.take size) then
    return octets.take size
  else
    throw .base58Checksum

end WitnessSigning.Base58
