import Mathlib.AlgebraicGeometry.EllipticCurve.Affine.Point
import WitnessSigning.Curve.Point
import WitnessSigning.Proofs.Curve.Field

/-!
# The points of the curve form a group

The group is that of Mathlib, and the computations with Jacobian coordinates are shown to be its
operations: coordinates represent a point (`WitnessSigning.Jacobian.Represents`), and doubling and
adding coordinates doubles and adds the points that they represent. By induction on the bits of a
scalar, the multiple of a point is the multiple in the group
(`WitnessSigning.Point.multiply_ofGroup`).

The group order times the generator is infinity, so as the order is prime, two scalars give the same
multiple of the generator only if they are equal
(`WitnessSigning.generator_multiply_injective`).
-/

namespace WitnessSigning

open WeierstrassCurve

/-! ### The curve -/

/-- **The curve `y ^ 2 = x ^ 3 + 7`.** -/
def curve : Affine (ZMod fieldPrime) where
  a₁ := 0
  a₂ := 0
  a₃ := 0
  a₄ := 0
  a₆ := 7

theorem curve_equation_iff {x y : ZMod fieldPrime} : curve.Equation x y ↔ y ^ 2 = x ^ 3 + 7 := by
  rw [Affine.equation_iff]
  simp [curve]

theorem two_ne_zero_coordinate : (2 : ZMod fieldPrime) ≠ 0 := by
  have h : residue (2 : Coordinate) ≠ 0 := residue_eq_zero_iff.not.2 (by decide)
  simpa using h

theorem three_ne_zero_coordinate : (3 : ZMod fieldPrime) ≠ 0 := by
  have h : residue (3 : Coordinate) ≠ 0 := residue_eq_zero_iff.not.2 (by decide)
  simpa using h

theorem seven_ne_zero_coordinate : (7 : ZMod fieldPrime) ≠ 0 := by
  have h : residue (7 : Coordinate) ≠ 0 := residue_eq_zero_iff.not.2 (by decide)
  simpa using h

theorem curve_nonsingular_iff {x y : ZMod fieldPrime} :
    curve.Nonsingular x y ↔ y ^ 2 = x ^ 3 + 7 := by
  rw [Affine.nonsingular_iff, curve_equation_iff]
  refine and_iff_left_of_imp fun h => ?_
  by_contra hsing
  -- at a singular point both derivatives vanish, so it would be the origin
  obtain ⟨hx, hy⟩ := not_or.1 hsing
  have hy : y = 0 := by
    have h2 : y = -y := by simpa [curve] using not_not.1 hy
    have h2 : 2 * y = 0 := by linear_combination h2
    exact (mul_eq_zero.1 h2).resolve_left two_ne_zero_coordinate
  have hx : x = 0 := by
    have h3 : 0 = 3 * x ^ 2 := by
      simpa only [curve, zero_mul, mul_zero, add_zero] using not_not.1 hx
    exact eq_zero_of_pow_eq_zero ((mul_eq_zero.1 h3.symm).resolve_left three_ne_zero_coordinate)
  rw [hx, hy] at h
  exact seven_ne_zero_coordinate (by simpa using h.symm)

theorem curve_negY (x y : ZMod fieldPrime) : curve.negY x y = -y := by
  simp [Affine.negY, curve]

namespace Jacobian

/-- **The point that coordinates represent.** -/
inductive Represents (P : Jacobian) : curve.Point → Prop
  | zero (hz : P.z = 0) : P.Represents .zero
  | some {x y : ZMod fieldPrime} {h : curve.Nonsingular x y} (hz : P.z ≠ 0)
      (hx : residue P.x = x * residue P.z ^ 2) (hy : residue P.y = y * residue P.z ^ 3) :
      P.Represents (.some x y h)

theorem represents_zero {P : Jacobian} : P.Represents 0 ↔ P.z = 0 := by
  constructor
  · intro h
    cases h with
    | zero hz => exact hz
  · exact .zero

theorem represents_some {P : Jacobian} {x y : ZMod fieldPrime} {h : curve.Nonsingular x y} :
    P.Represents (.some x y h) ↔
      residue P.z ≠ 0 ∧ residue P.x = x * residue P.z ^ 2 ∧ residue P.y = y * residue P.z ^ 3 := by
  rw [Ne, residue_eq_zero_iff]
  constructor
  · intro h
    cases h with
    | some hz hx hy => exact ⟨hz, hx, hy⟩
  · rintro ⟨hz, hx, hy⟩
    exact .some hz hx hy

theorem Represents.z_ne_zero {P : Jacobian} {x y : ZMod fieldPrime} {h : curve.Nonsingular x y}
    (hP : P.Represents (.some x y h)) : P.z ≠ 0 := by
  cases hP with
  | some hz hx hy => exact hz

/-- Coordinates without a denominator represent infinity only. -/
theorem Represents.eq_zero {P : Jacobian} {A : curve.Point} (h : P.Represents A) (hz : P.z = 0) :
    A = 0 := by
  cases h with
  | zero => rfl
  | some hz' hx hy => exact absurd hz hz'

/-- Doubling coordinates doubles the point. -/
theorem Represents.double {P : Jacobian} {A : curve.Point} (h : P.Represents A) :
    P.double.Represents (A + A) := by
  have hz : residue P.double.z = 2 * (residue P.y * residue P.z) := by
    simp [Jacobian.double]
  cases A with
  | zero =>
    rw [← Affine.Point.zero_def, represents_zero] at h
    rw [← Affine.Point.zero_def, add_zero, represents_zero, ← residue_eq_zero_iff, hz, h]
    simp
  | some x y hxy =>
    obtain ⟨hz0, hx, hy⟩ := represents_some.1 h
    rcases eq_or_ne y 0 with rfl | hy0
    · -- the tangent is vertical
      have hneg : 0 = curve.negY x 0 := by rw [curve_negY, neg_zero]
      rw [Affine.Point.add_self_of_Y_eq hneg, represents_zero, ← residue_eq_zero_iff, hz, hy]
      simp
    · have hneg : y ≠ curve.negY x y := by
        rw [curve_negY]
        intro h
        have h2 : 2 * y = 0 := by linear_combination h
        exact hy0 ((mul_eq_zero.1 h2).resolve_left two_ne_zero_coordinate)
      have h2 := two_ne_zero_coordinate
      have hslope : curve.slope x x y y = 3 * x ^ 2 / (2 * y) := by
        rw [Affine.slope_of_Y_ne rfl hneg, curve_negY, sub_neg_eq_add, ← two_mul]
        simp [curve]
      rw [Affine.Point.add_self_of_Y_ne hneg, represents_some, hz, hslope]
      refine ⟨?_, ?_, ?_⟩
      · rw [hy]
        exact mul_ne_zero h2 (mul_ne_zero (mul_ne_zero hy0 (pow_ne_zero 3 hz0)) hz0)
      · simp only [Affine.addX, Jacobian.double, residue_sub, residue_mul, residue_ofNat, hx, hy,
          curve]
        field_simp
        ring
      · simp only [Affine.addY, Affine.negY, Affine.negAddY, Affine.addX, Jacobian.double,
          residue_sub, residue_mul, residue_ofNat, hx, hy, curve]
        field_simp
        ring

section Add

variable {P Q : Jacobian} {x y x' y' : ZMod fieldPrime} {hxy : curve.Nonsingular x y}
  {hxy' : curve.Nonsingular x' y'}

/-- First coordinates are compared over a common denominator. -/
theorem Represents.x_eq_iff (hP : P.Represents (.some x y hxy))
    (hQ : Q.Represents (.some x' y' hxy')) :
    P.x * (Q.z * Q.z) = Q.x * (P.z * P.z) ↔ x = x' := by
  obtain ⟨hz, hx, -⟩ := represents_some.1 hP
  obtain ⟨hz', hx', -⟩ := represents_some.1 hQ
  rw [← residue_inj]
  simp only [residue_mul, hx, hx']
  have hzz : residue P.z ^ 2 * residue Q.z ^ 2 ≠ 0 :=
    mul_ne_zero (pow_ne_zero 2 hz) (pow_ne_zero 2 hz')
  constructor
  · intro h
    exact mul_right_cancel₀ hzz (by linear_combination h)
  · rintro rfl
    ring

/-- Second coordinates are compared over a common denominator. -/
theorem Represents.y_eq_iff (hP : P.Represents (.some x y hxy))
    (hQ : Q.Represents (.some x' y' hxy')) :
    P.y * (Q.z * Q.z * Q.z) = Q.y * (P.z * P.z * P.z) ↔ y = y' := by
  obtain ⟨hz, -, hy⟩ := represents_some.1 hP
  obtain ⟨hz', -, hy'⟩ := represents_some.1 hQ
  rw [← residue_inj]
  simp only [residue_mul, hy, hy']
  have hzz : residue P.z ^ 3 * residue Q.z ^ 3 ≠ 0 :=
    mul_ne_zero (pow_ne_zero 3 hz) (pow_ne_zero 3 hz')
  constructor
  · intro h
    exact mul_right_cancel₀ hzz (by linear_combination h)
  · rintro rfl
    ring

/-- **The chord**: adding coordinates of points with different first coordinates. -/
theorem Represents.add_of_x_ne (hP : P.Represents (.some x y hxy))
    (hQ : Q.Represents (.some x' y' hxy')) (hne : x ≠ x') :
    (P.add Q).Represents (.some x y hxy + .some x' y' hxy') := by
  obtain ⟨hz, hx, hy⟩ := represents_some.1 hP
  obtain ⟨hz', hx', hy'⟩ := represents_some.1 hQ
  have hcross : P.x * (Q.z * Q.z) ≠ Q.x * (P.z * P.z) := (hP.x_eq_iff hQ).not.2 hne
  have hslope : curve.slope x x' y y' = (y - y') / (x - x') := Affine.slope_of_X_ne hne
  have hsub : x - x' ≠ 0 := sub_ne_zero.2 hne
  rw [Jacobian.add, if_neg hP.z_ne_zero, if_neg hQ.z_ne_zero, Affine.Point.add_of_X_ne hne,
    represents_some, hslope]
  simp only [if_neg hcross]
  refine ⟨?_, ?_, ?_⟩
  · -- the new denominator is the product of the old ones and the run of the chord
    simp only [residue_mul, residue_sub, hx, hx']
    have hzz : (x - x') * (residue P.z * residue Q.z) ^ 3 ≠ 0 :=
      mul_ne_zero hsub (pow_ne_zero 3 (mul_ne_zero hz hz'))
    exact fun h => hzz (by linear_combination -h)
  · simp only [Affine.addX, residue_mul, residue_sub, residue_ofNat, hx, hx', hy, hy', curve]
    field_simp
    ring
  · simp only [Affine.addY, Affine.negY, Affine.negAddY, Affine.addX, residue_mul,
      residue_sub, residue_ofNat, hx, hx', hy, hy', curve]
    field_simp
    ring

end Add

/-- Adding coordinates adds the points. -/
theorem Represents.add {P Q : Jacobian} {A B : curve.Point} (hP : P.Represents A)
    (hQ : Q.Represents B) : (P.add Q).Represents (A + B) := by
  cases A with
  | zero =>
    rw [← Affine.Point.zero_def, represents_zero] at hP
    rwa [← Affine.Point.zero_def, zero_add, Jacobian.add, if_pos hP]
  | some x y hxy =>
    cases B with
    | zero =>
      rw [← Affine.Point.zero_def, represents_zero] at hQ
      rw [← Affine.Point.zero_def, add_zero, Jacobian.add, if_neg hP.z_ne_zero, if_pos hQ]
      exact hP
    | some x' y' hxy' =>
      rcases eq_or_ne x x' with rfl | hxx
      · rw [Jacobian.add, if_neg hP.z_ne_zero, if_neg hQ.z_ne_zero]
        simp only [(hP.x_eq_iff hQ).2 rfl, if_true]
        rcases eq_or_ne y y' with rfl | hyy
        · rw [if_pos ((hP.y_eq_iff hQ).2 rfl)]
          exact hP.double
        · -- on the curve the other second coordinate can only be the negative
          have hsq : y ^ 2 = y' ^ 2 :=
            (curve_nonsingular_iff.1 hxy).trans (curve_nonsingular_iff.1 hxy').symm
          have hneg : y = curve.negY x y' := by
            rw [curve_negY]
            exact (sq_eq_sq_iff_eq_or_eq_neg.1 hsq).resolve_left hyy
          rw [if_neg ((hP.y_eq_iff hQ).not.2 hyy), Affine.Point.add_of_Y_eq rfl hneg]
          exact represents_zero.2 rfl
      · exact hP.add_of_x_ne hQ hxx

/-- Multiples of coordinates represent the multiples of the point. -/
theorem Represents.multiplyBits {P : Jacobian} {A : curve.Point} (h : P.Represents A)
    (width k : Nat) : (P.multiplyBits width k).Represents ((k % 2 ^ width) • A) := by
  induction width generalizing k with
  | zero =>
    rw [pow_zero, Nat.mod_one, zero_nsmul]
    exact represents_zero.2 rfl
  | succ width ih =>
    have hk : k % 2 ^ (width + 1) = k / 2 % 2 ^ width + k / 2 % 2 ^ width + k % 2 := by
      rw [pow_succ', Nat.mod_mul]
      omega
    have hdouble := (ih (k / 2)).double
    rw [Jacobian.multiplyBits, hk, add_nsmul, add_nsmul]
    rcases Nat.mod_two_eq_zero_or_one k with hbit | hbit
    · simpa [hbit] using hdouble
    · simpa [hbit] using hdouble.add h

theorem Represents.multiplyBits_of_lt {P : Jacobian} {A : curve.Point} (h : P.Represents A)
    {width k : Nat} (hk : k < 2 ^ width) : (P.multiplyBits width k).Represents (k • A) := by
  have hm := h.multiplyBits width k
  rwa [Nat.mod_eq_of_lt hk] at hm

theorem Represents.multiply {P : Jacobian} {A : curve.Point} (h : P.Represents A) (k : Scalar) :
    (P.multiply k).Represents (k.val • A) :=
  h.multiplyBits_of_lt (k.isLt.trans (by decide))

end Jacobian

/-! ### Points -/

/-- The coordinate of a residue. -/
def ofResidue (z : ZMod fieldPrime) : Coordinate :=
  ⟨z.val, ZMod.val_lt z⟩

@[simp]
theorem residue_ofResidue (z : ZMod fieldPrime) : residue (ofResidue z) = z :=
  ZMod.natCast_zmod_val z

namespace Point

/-- **A point of the group** with its coordinates written out. -/
def ofGroup : curve.Point → Point
  | .zero => infinity
  | .some x y _ => affine (ofResidue x) (ofResidue y)

theorem ofGroup_injective : Function.Injective ofGroup := by
  intro A B h
  cases A with
  | zero =>
    cases B with
    | zero => rfl
    | some x' y' h' => cases h
  | some x y hxy =>
    cases B with
    | zero => cases h
    | some x' y' hxy' =>
      rw [ofGroup, ofGroup, Point.affine.injEq, ← residue_inj, ← residue_inj] at h
      simp only [residue_ofResidue] at h
      obtain ⟨rfl, rfl⟩ := h
      rfl

theorem residue_curveCubic (x : Coordinate) : residue (curveCubic x) = residue x ^ 3 + 7 := by
  simp only [curveCubic, residue_add, residue_mul, residue_ofNat, pow_succ, pow_zero, one_mul]

theorem onCurve_affine_iff {x y : Coordinate} :
    (affine x y).OnCurve ↔ residue y ^ 2 = residue x ^ 3 + 7 := by
  show y * y = curveCubic x ↔ _
  rw [← residue_inj, residue_curveCubic, residue_mul, sq]

/-- **The points of the curve** are those of the group. -/
theorem onCurve_iff_exists {P : Point} : P.OnCurve ↔ ∃ A, ofGroup A = P := by
  constructor
  · intro h
    cases P with
    | infinity => exact ⟨0, rfl⟩
    | affine x y =>
      refine ⟨.some (residue x) (residue y) (curve_nonsingular_iff.2 (onCurve_affine_iff.1 h)), ?_⟩
      rw [ofGroup, Point.affine.injEq, ← residue_inj, ← residue_inj]
      simp
  · rintro ⟨A, rfl⟩
    cases A with
    | zero => trivial
    | some x y hxy =>
      rw [ofGroup, onCurve_affine_iff, residue_ofResidue, residue_ofResidue]
      exact curve_nonsingular_iff.1 hxy

theorem represents_ofPoint (A : curve.Point) : (Jacobian.ofPoint (ofGroup A)).Represents A := by
  cases A with
  | zero => exact Jacobian.represents_zero.2 rfl
  | some x y hxy =>
    refine Jacobian.represents_some.2 ?_
    simp [ofGroup, Jacobian.ofPoint]

end Point

/-- Coordinates are turned into the point that they represent. -/
theorem Jacobian.Represents.toPoint_eq {P : Jacobian} {A : curve.Point} (h : P.Represents A) :
    P.toPoint = Point.ofGroup A := by
  cases A with
  | zero => exact if_pos (Jacobian.represents_zero.1 h)
  | some x y hxy =>
    obtain ⟨hz, hx, hy⟩ := Jacobian.represents_some.1 h
    rw [Jacobian.toPoint, if_neg h.z_ne_zero, Point.ofGroup, Point.affine.injEq, ← residue_inj,
      ← residue_inj]
    simp only [residue_mul, residue_inverse_coordinate, residue_ofResidue, hx, hy]
    refine ⟨?_, ?_⟩
    · field_simp
    · field_simp

namespace Point

/-- **Multiples of points** are those in the group. -/
theorem multiply_ofGroup (k : Scalar) (A : curve.Point) :
    (ofGroup A).multiply k = ofGroup (k.val • A) :=
  ((represents_ofPoint A).multiply k).toPoint_eq

end Point

/-! ### The generator -/

theorem generator_onCurve : generator.OnCurve := by
  decide +kernel

/-- **The generator has the group order.** -/
theorem addOrderOf_generator {G : curve.Point} (hG : Point.ofGroup G = generator) :
    addOrderOf G = groupOrder := by
  have hz : ((Jacobian.ofPoint generator).multiplyBits 256 groupOrder).z = 0 := by
    decide +kernel
  have hmultiple : ((Jacobian.ofPoint generator).multiplyBits 256 groupOrder).Represents
      (groupOrder • G) := by
    rw [← hG]
    exact (Point.represents_ofPoint G).multiplyBits_of_lt (by decide)
  refine addOrderOf_eq_prime (hmultiple.eq_zero hz) ?_
  rintro rfl
  cases hG

/-- The multiples of the generator are points of the curve. -/
theorem generator_multiply_onCurve (k : Scalar) : (generator.multiply k).OnCurve := by
  obtain ⟨G, hG⟩ := Point.onCurve_iff_exists.1 generator_onCurve
  rw [← hG, Point.multiply_ofGroup]
  exact Point.onCurve_iff_exists.2 ⟨_, rfl⟩

/-- **Different scalars have different multiples of the generator.** -/
theorem generator_multiply_injective {k l : Scalar}
    (h : generator.multiply k = generator.multiply l) : k = l := by
  obtain ⟨G, hG⟩ := Point.onCurve_iff_exists.1 generator_onCurve
  rw [← hG, Point.multiply_ofGroup, Point.multiply_ofGroup] at h
  have hmod := nsmul_eq_nsmul_iff_modEq.1 (Point.ofGroup_injective h)
  rw [addOrderOf_generator hG] at hmod
  exact Fin.ext (Nat.ModEq.eq_of_lt_of_lt hmod k.isLt l.isLt)

/-- Only the multiple by zero is infinity. -/
theorem generator_multiply_ne_infinity {k : Scalar} (hk : k ≠ 0) :
    generator.multiply k ≠ .infinity := by
  intro h
  obtain ⟨G, hG⟩ := Point.onCurve_iff_exists.1 generator_onCurve
  have hzero : generator.multiply 0 = .infinity := by
    rw [← hG, Point.multiply_ofGroup, Fin.val_zero, zero_nsmul]
    rfl
  exact hk (generator_multiply_injective (h.trans hzero.symm))

end WitnessSigning
