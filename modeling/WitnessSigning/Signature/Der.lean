import WitnessSigning.Signature.Basic
import WitnessSigning.Text.Hex

/-!
# Signatures in strict DER

The distinguished encoding of a signature is a sequence of two integers, each positive and in the
fewest octets: a leading zero stands only in front of an octet whose highest bit is set. Reading
checks this by looking at single places of its input. Each look may fall outside, which the reads
below report as `none`, apart from the verdict that they otherwise come to.

In a witness, one more octet behind the encoding tells what the signature commits to; here that is
always the whole transaction.
-/

namespace WitnessSigning.Signature

/-! ### Writing -/

/-- A number in the fewest octets that leave the highest bit clear. -/
def derInteger (v : BitVec 256) : Bytes :=
  match (bigEndian 32 v.toNat).toList.dropWhile (· == 0) with
  | [] => [0]
  | b :: rest => if 0x80 ≤ b then 0 :: b :: rest else b :: rest

/-- Octets behind a tag and their number. -/
def derTagged (tag : UInt8) (bs : Bytes) : Bytes :=
  tag :: UInt8.ofNat bs.length :: bs

/-- **The encoding of a signature.** -/
def toDer (sig : Signature) : Bytes :=
  derTagged 0x30 (derTagged 2 (derInteger sig.r) ++ derTagged 2 (derInteger sig.s))

/-! ### Reading -/

/-- Whether the integer of the given place and length is positive and in the fewest octets. -/
def minimalAt? (bs : Bytes) (place length : Nat) : Option Bool := do
  if length = 0 then
    return false
  else
    let first ← bs[place]?
    if 0x80 ≤ first then
      return false
    else if 1 < length ∧ first = 0 then
      let second ← bs[place + 1]?
      return 0x80 ≤ second
    else
      return true

/-- **The check of the whole layout**, place by place. -/
def strictDer? (bs : Bytes) : Option Bool := do
  if bs.length < 8 ∨ 72 < bs.length then
    return false
  else if (← bs[0]?) ≠ 0x30 then
    return false
  else if (← bs[1]?).toNat ≠ bs.length - 2 then
    return false
  else
    let r := (← bs[3]?).toNat
    if bs.length ≤ 5 + r then
      return false
    else
      let s := (← bs[5 + r]?).toNat
      if r + s + 6 ≠ bs.length then
        return false
      else if (← bs[2]?) ≠ 2 then
        return false
      else if !(← minimalAt? bs 4 r) then
        return false
      else if (← bs[r + 4]?) ≠ 2 then
        return false
      else
        minimalAt? bs (r + 6) s

/-- The octets of a range, if all of it is there. -/
def range? (bs : Bytes) (start length : Nat) : Option Bytes :=
  if start + length ≤ bs.length then some ((bs.drop start).take length) else none

/-- The number of an integer, if it has at most 256 bits. -/
def derNumber? (integer : Bytes) : Option (BitVec 256) :=
  let digits := integer.dropWhile (· == 0)
  if digits.length ≤ 32 then some (BitVec.ofNat 256 (ofBigEndian digits)) else none

/-- Reads an encoding: `none` for a look outside, `some none` for what is no strict encoding of a
signature. -/
def inspectDer (bs : Bytes) : Option (Option Signature) := do
  if ← strictDer? bs then
    let r := (← bs[3]?).toNat
    let s := (← bs[5 + r]?).toNat
    let rOctets ← range? bs 4 r
    let sOctets ← range? bs (6 + r) s
    return do
      let r ← derNumber? rOctets
      let s ← derNumber? sOctets
      return { r, s }
  else
    return none

/-- **Reads a signature** from its encoding. -/
def ofDer? (bs : Bytes) : Option Signature :=
  (inspectDer bs).join

/-- Reads a signature from its encoding in hexadecimal. -/
def ofHex? (text : Text) : Except Error (Option Signature) := do
  return ofDer? (← Hex.decode text)

/-- The encoding of a signature in hexadecimal. -/
def toHex (sig : Signature) : Text :=
  Hex.encode sig.toDer

/-! ### Witness items -/

/-- The octet for a signature that commits to the whole transaction. -/
def commitAll : UInt8 := 1

/-- **A signature as an item of a witness.** -/
def toItem (sig : Signature) : Bytes :=
  sig.toDer ++ [commitAll]

/-- **Reads a signature** from an item of a witness. -/
def ofItem? (item : Bytes) : Option Signature :=
  if item.getLast? = some commitAll then ofDer? item.dropLast else none

end WitnessSigning.Signature
