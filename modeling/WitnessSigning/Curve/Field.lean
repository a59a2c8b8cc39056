import WitnessSigning.Octets.Order

/-!
# The two prime fields

The curve is defined over the residues modulo `WitnessSigning.fieldPrime`, and its points are
multiplied by residues modulo `WitnessSigning.groupOrder`. Sums and products are those of `Fin`;
this file adds powers, and through them inverses (`x ^ (m - 2)`, as the modulus is prime) and
square roots (`x ^ ((m + 1) / 4)`, as the field prime is 3 modulo 4).
-/

namespace WitnessSigning

/-- The modulus of the coordinates, `2 ^ 256 - 2 ^ 32 - 977`. -/
def fieldPrime : Nat :=
  0xfffffffffffffffffffffffffffffffffffffffffffffffffffffffefffffc2f

/-- The number of points of the curve. -/
def groupOrder : Nat :=
  0xfffffffffffffffffffffffffffffffebaaedce6af48a03bbfd25e8cd0364141

-- The zero is written out, so that these instances do not depend on where `Nat` gets it from.
instance : @NeZero Nat ⟨0⟩ fieldPrime := ⟨by decide⟩

instance : @NeZero Nat ⟨0⟩ groupOrder := ⟨by decide⟩

/-- Coordinates. -/
abbrev Coordinate := Fin fieldPrime

/-- Multipliers of points. -/
abbrev Scalar := Fin groupOrder

/-- A power whose exponent is the low `width` bits of a number, from the highest bit down. -/
def powerBits {α : Type} [Mul α] [OfNat α 1] (x : α) : Nat → Nat → α
  | 0, _ => 1
  | width + 1, e =>
    let y := powerBits x width (e / 2)
    if e % 2 = 1 then y * y * x else y * y

/-- A power with an exponent of up to 256 bits. -/
def power {α : Type} [Mul α] [OfNat α 1] (x : α) (e : Nat) : α :=
  powerBits x 256 e

/-- **The inverse** of a residue modulo a prime of up to 256 bits, and zero for zero. -/
def inverse {m : Nat} [OfNat (Fin m) 1] (x : Fin m) : Fin m :=
  power x (m - 2)

/-- **A square root** of a coordinate, if it is a square. -/
def squareRoot? (a : Coordinate) : Option Coordinate :=
  let y := power a ((fieldPrime + 1) / 4)
  if y * y = a then some y else none

/-- Whether the least residue is odd. Of a coordinate other than zero and its
negative, exactly one is. -/
def isOdd (a : Coordinate) : Bool :=
  a.val % 2 = 1

end WitnessSigning
