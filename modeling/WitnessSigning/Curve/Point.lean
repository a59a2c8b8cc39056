import WitnessSigning.Curve.Field

/-!
# The curve and its points

A point is at infinity or has two coordinates that satisfy `y ^ 2 = x ^ 3 + 7`. Multiples are
computed in Jacobian coordinates, where `(x, y, z)` stands for `(x / z ^ 2, y / z ^ 3)`, or for
infinity when `z` is zero, so that one multiplication takes one inverse only, at its end.
-/

namespace WitnessSigning

/-- A pair of coordinates or the point at infinity. -/
inductive Point where
  | infinity
  | affine (x y : Coordinate)
  deriving DecidableEq, Repr

/-- The right-hand side of the curve's equation. -/
def curveCubic (x : Coordinate) : Coordinate :=
  x * x * x + 7

/-- **The points of the curve.** -/
def Point.OnCurve : Point → Prop
  | infinity => True
  | affine x y => y * y = curveCubic x

instance (P : Point) : Decidable P.OnCurve :=
  match P with
  | .infinity => inferInstanceAs (Decidable True)
  | .affine x y => inferInstanceAs (Decidable (y * y = curveCubic x))

/-- The point that generates all others. -/
def generator : Point :=
  .affine
    (Fin.ofNat fieldPrime 0x79be667ef9dcbbac55a06295ce870b07029bfcdb2dce28d959f2815b16f81798)
    (Fin.ofNat fieldPrime 0x483ada7726a3c4655da4fbfc0e1108a8fd17b448a68554199c47d08ffb10d4b8)

/-- A point of the curve in Jacobian coordinates. -/
structure Jacobian where
  x : Coordinate
  y : Coordinate
  z : Coordinate
  deriving DecidableEq, Repr

namespace Jacobian

/-- The point at infinity. -/
def infinity : Jacobian where
  x := 1
  y := 1
  z := 0

/-- A point with denominator one. -/
def ofPoint : Point → Jacobian
  | .infinity => infinity
  | .affine x y => { x, y, z := 1 }

/-- The point that coordinates stand for. -/
def toPoint (P : Jacobian) : Point :=
  if P.z = 0 then
    .infinity
  else
    let i := inverse P.z
    .affine (P.x * (i * i)) (P.y * (i * i * i))

/-- **Twice a point.** -/
def double (P : Jacobian) : Jacobian :=
  let b := P.y * P.y
  let s := 4 * (P.x * b)
  let m := 3 * (P.x * P.x)
  let x := m * m - 2 * s
  { x, y := m * (s - x) - 8 * (b * b), z := 2 * (P.y * P.z) }

/-- **The sum of two points**, equal or opposite ones included. -/
def add (P Q : Jacobian) : Jacobian :=
  if P.z = 0 then Q
  else if Q.z = 0 then P
  else
    let u := P.x * (Q.z * Q.z)
    let v := Q.x * (P.z * P.z)
    let s := P.y * (Q.z * Q.z * Q.z)
    let t := Q.y * (P.z * P.z * P.z)
    if u = v then
      if s = t then double P else infinity
    else
      let h := v - u
      let r := t - s
      let c := u * (h * h)
      let x := r * r - h * h * h - 2 * c
      { x, y := r * (c - x) - s * (h * h * h), z := h * (P.z * Q.z) }

/-- A multiple of a point by the low `width` bits of a number, from the highest bit down. -/
def multiplyBits (P : Jacobian) : Nat → Nat → Jacobian
  | 0, _ => infinity
  | width + 1, k =>
    let Q := double (multiplyBits P width (k / 2))
    if k % 2 = 1 then add Q P else Q

/-- A multiple of a point. -/
def multiply (k : Scalar) (P : Jacobian) : Jacobian :=
  multiplyBits P 256 k.val

end Jacobian

namespace Point

/-- The sum of two points. -/
def add (P Q : Point) : Point :=
  (Jacobian.add (Jacobian.ofPoint P) (Jacobian.ofPoint Q)).toPoint

/-- A multiple of a point. -/
def multiply (k : Scalar) (P : Point) : Point :=
  (Jacobian.multiply k (Jacobian.ofPoint P)).toPoint

/-- **The sum of multiples of two points**, with one inverse for both. -/
def combine (k : Scalar) (P : Point) (l : Scalar) (Q : Point) : Point :=
  (Jacobian.add (Jacobian.multiply k (Jacobian.ofPoint P))
    (Jacobian.multiply l (Jacobian.ofPoint Q))).toPoint

end Point

end WitnessSigning
