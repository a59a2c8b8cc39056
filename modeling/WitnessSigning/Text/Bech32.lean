import WitnessSigning.Text.Regroup

/-!
# Bech32 witness addresses

An address is a human-readable part, the separator `1`, and symbols of five bits each: the witness
version, the witness program, and six symbols of checksum. The checksum is a remainder of 30 bits
over everything in front of it (`WitnessSigning.Bech32.remainder`), chosen so that the remainder
over the whole address is one. Only version 0 is written and read here.
-/

namespace WitnessSigning.Bech32

open Text (isLower isUpper lower)

/-- The symbols in the order of their values. -/
def alphabet : Text :=
  "qpzry9x8gf2tvdw0s3jn54khce6mua7l".toList.map fun c => UInt8.ofNat c.toNat

/-- The octet between the human-readable part and the symbols. -/
def separator : UInt8 := 49

/-- The witness version of all addresses here. -/
def version : UInt8 := 0

/-- The number of checksum symbols. -/
def checksumLength : Nat := 6

/-- The number of octets in the longest address. -/
def maxLength : Nat := 90

/-! ### The checksum -/

/-- What the five highest bits of a remainder turn into when they are shifted
out, the lowest of them first. -/
def generators : List (BitVec 30) :=
  [0x3b6a57b2, 0x26508e6d, 0x1ea119fa, 0x3d4233dd, 0x2a1462b3]

/-- Adds a generator if the bit that it belongs to is shifted out of the state. -/
def reduce (state acc : BitVec 30) : BitVec 30 × Nat → BitVec 30
  | (g, i) => if state.getLsbD (25 + i) then acc ^^^ g else acc

/-- Takes one value into a remainder. -/
def remainderStep (state : BitVec 30) (value : UInt8) : BitVec 30 :=
  generators.zipIdx.foldl (reduce state) ((state <<< 5) ^^^ BitVec.ofNat 30 value.toNat)

/-- **The remainder** of a sequence of values. -/
def remainder (values : Bytes) : BitVec 30 :=
  values.foldl remainderStep 1

/-- The human-readable part as values for the checksum: the high bits of its octets, a zero, and the
low bits. -/
def expand (hrp : Text) : Bytes :=
  hrp.map (fun c : UInt8 => c >>> 5) ++ 0 :: hrp.map fun c : UInt8 => c &&& 31

/-- The six values that bring the remainder to one. -/
def checksum (hrp : Text) (values : Bytes) : Bytes :=
  let r := remainder (expand hrp ++ values ++ List.replicate checksumLength 0) ^^^ 1
  (List.range checksumLength).map fun i => UInt8.ofNat (r.extractLsb' (5 * (5 - i)) 5).toNat

/-! ### Writing -/

/-- The octet that stands for a value. -/
def symbol (value : UInt8) : UInt8 :=
  alphabet.getD value.toNat 0

/-- The values of a program: its version, and its octets in groups of five bits. No octet is too
wide for regrouping, which therefore always has a result. -/
def programValues (program : Bytes) : Bytes :=
  version :: (Regroup.regroup? 8 5 true program).getD []

/-- **The address of a witness program**, for any human-readable part and any length. -/
def encode (hrp : Text) (program : Bytes) : Text :=
  let values := programValues program
  hrp ++ separator :: (values ++ checksum hrp values).map symbol

/-! ### Reading -/

/-- The parts in front of and behind the last occurrence of an octet. -/
def splitLast? (c : UInt8) (text : Text) : Option (Text × Text) :=
  let back := (text.reverse.takeWhile (· != c)).reverse
  if back.length < text.length then
    some (text.take (text.length - back.length - 1), back)
  else
    none

/-- Whether a text can be an address at all: short enough, printable, and in one case. -/
def wellFormed (text : Text) : Bool :=
  text.length ≤ maxLength && text.all (fun c => 33 ≤ c && c ≤ 126) &&
    !(text.any isLower && text.any isUpper)

/-- Removes version and checksum from the values of an address whose checksum holds. -/
def program? (values : Bytes) : Option Bytes :=
  match values.take (values.length - checksumLength) with
  | [] => none
  | v :: groups =>
    if v = version then
      (Regroup.regroup? 5 8 false groups).filter fun p => p.length = 20 || p.length = 32
    else
      none

/-- **Reads an address** back to its witness program, if it is one for the given human-readable
part. -/
def decode? (hrp text : Text) : Option Bytes :=
  if wellFormed text then do
    let (front, back) ← splitLast? separator (text.map lower)
    if front ≠ [] ∧ checksumLength ≤ back.length ∧ front = hrp then
      let values ← back.mapM fun c => (alphabet.idxOf? c).map UInt8.ofNat
      if remainder (expand hrp ++ values) = 1 then program? values else none
    else
      none
  else
    none

end WitnessSigning.Bech32
