import WitnessSigning.Curve.Point
import WitnessSigning.Error

/-!
# Points as octets

The compressed form of a point is a tag, 2 for an even second coordinate and 3 for an odd one, and
its first coordinate; infinity has none. Reading knows more forms: a single zero for infinity,
both coordinates behind the tag 4, and both behind 6 or 7, which also give the second one's
parity. Coordinates are below the field prime and the point is on the curve, or there is no point.
-/

namespace WitnessSigning.Point

/-- A coordinate from 32 octets, if it is below the field prime. -/
def coordinate? (bs : Bytes) : Option Coordinate :=
  if bs.length = 32 then
    if h : ofBigEndian bs < fieldPrime then some ⟨ofBigEndian bs, h⟩ else none
  else
    none

/-- The point with a given first coordinate and the given parity of the second. -/
def lift? (x : Coordinate) (odd : Bool) : Option Point :=
  (squareRoot? (curveCubic x)).map fun y => affine x (if isOdd y = odd then y else -y)

/-- **Reads a point** in any of its forms. -/
def ofBytes? : Bytes → Option Point
  | [] => none
  | tag :: rest =>
    if tag = 0 then
      if rest = [] then some infinity else none
    else if tag = 2 ∨ tag = 3 then do
      lift? (← coordinate? rest) (tag = 3)
    else if tag = 4 ∨ tag = 6 ∨ tag = 7 then do
      let x ← coordinate? (rest.take 32)
      let y ← coordinate? (rest.drop 32)
      if (affine x y).OnCurve ∧ (tag = 4 ∨ isOdd y = decide (tag = 7)) then some (affine x y)
      else none
    else
      none

/-- The compressed form of a pair of coordinates. -/
def compressPair (x y : Coordinate) : Octets 33 where
  toList := (if isOdd y then 3 else 2) :: (bigEndian 32 x.val).toList
  length_toList := by simp [(bigEndian 32 x.val).length_toList]

/-- **The compressed form** of a point. -/
def compress : Point → Except Error (Octets 33)
  | infinity => .error .infinity
  | affine x y => .ok (compressPair x y)

end WitnessSigning.Point
