import WitnessSigning.Proofs.Curve.Encoding

/-!
# The number of points

The curve has exactly as many points as the group order says, so that the group order annihilates
all of them and not only the multiples of the generator. Counting goes without the points
themselves: for each first coordinate there are at most two, so with infinity the points are fewer
than three times the group order (`WitnessSigning.natCard_point_le`). The order of the generator
divides their number, which leaves one and two times the group order. An even number of points
takes a point that is its own negative, and there is none but infinity, as minus seven is not a
cube (`WitnessSigning.eq_zero_of_add_self`).
-/

namespace WitnessSigning

open WeierstrassCurve

/-! ### At most two points for a first coordinate -/

/-- **A point by its first coordinate** and the parity of the second one. -/
def Point.sign? : Point → Option (Coordinate × Bool)
  | infinity => none
  | affine x y => some (x, isOdd y)

theorem Point.eq_of_sign?_eq {P Q : Point} (hP : P.OnCurve) (hQ : Q.OnCurve)
    (h : P.sign? = Q.sign?) : P = Q := by
  cases P with
  | infinity =>
    cases Q with
    | infinity => rfl
    | affine x' y' => cases h
  | affine x y =>
    cases Q with
    | infinity => cases h
    | affine x' y' =>
      rw [sign?, sign?, Option.some_inj, Prod.mk.injEq] at h
      have hpair : compressPair x y = compressPair x' y' := by
        rw [compressPair, compressPair, Octets.mk.injEq, h.1, h.2]
      obtain ⟨rfl, rfl⟩ := compressPair_injective hP hQ hpair
      rfl

theorem Point.sign?_ofGroup_injective :
    Function.Injective fun A : curve.Point => (ofGroup A).sign? :=
  fun A B h => ofGroup_injective
    (eq_of_sign?_eq (onCurve_iff_exists.2 ⟨A, rfl⟩) (onCurve_iff_exists.2 ⟨B, rfl⟩) h)

instance : Finite curve.Point :=
  Finite.of_injective _ Point.sign?_ofGroup_injective

theorem natCard_point_le : Nat.card curve.Point ≤ 2 * fieldPrime + 1 := by
  refine (Nat.card_le_card_of_injective _ Point.sign?_ofGroup_injective).trans_eq ?_
  rw [Finite.card_option, Nat.card_prod, Nat.card_fin, Nat.card_eq_fintype_card, Fintype.card_bool,
    Nat.mul_comm]

/-! ### No point of order two -/

/-- **Minus seven is not a cube**, as a cube has a power that is one by Fermat. -/
theorem cube_add_seven_ne_zero (x : ZMod fieldPrime) : x ^ 3 + 7 ≠ 0 := by
  intro h
  have hcube : x ^ 3 = residue (-7 : Coordinate) := by
    rw [residue_neg, residue_ofNat]
    exact eq_neg_of_add_eq_zero_left h
  have hx : x ≠ 0 := by
    rintro rfl
    exact seven_ne_zero_coordinate (by simpa using h)
  have hpower : residue (power (-7 : Coordinate) ((fieldPrime - 1) / 3)) = 1 := by
    have hexponent : 3 * ((fieldPrime - 1) / 3) = fieldPrime - 1 := by decide
    rw [residue_power _ (by decide), ← hcube, ← pow_mul, hexponent, ZMod.pow_card_sub_one_eq_one hx]
  rw [← residue_one, residue_inj] at hpower
  exact absurd hpower (by decide +kernel)

/-- **Only infinity is its own negative.** -/
theorem eq_zero_of_add_self {A : curve.Point} (h : A + A = 0) : A = 0 := by
  have hneg : A = -A := eq_neg_of_add_eq_zero_left h
  cases A with
  | zero => rfl
  | some x y hxy =>
    rw [Affine.Point.neg_some, Affine.Point.some.injEq, curve_negY] at hneg
    have hy : 2 * y = 0 := by linear_combination hneg.2
    have hcurve := curve_nonsingular_iff.1 hxy
    rw [(mul_eq_zero.1 hy).resolve_left two_ne_zero_coordinate, zero_pow two_ne_zero] at hcurve
    exact absurd hcurve.symm (cube_add_seven_ne_zero x)

/-! ### The number of points -/

/-- **The curve has as many points as the group order.** -/
theorem natCard_point : Nat.card curve.Point = groupOrder := by
  obtain ⟨G, hG⟩ := Point.onCurve_iff_exists.1 generator_onCurve
  obtain ⟨c, hc⟩ : groupOrder ∣ Nat.card curve.Point := by
    rw [← addOrderOf_generator hG]
    exact addOrderOf_dvd_natCard G
  have hpos : 0 < Nat.card curve.Point := Nat.card_pos
  have hlt : groupOrder * c < groupOrder * 3 := by
    rw [← hc]
    exact natCard_point_le.trans_lt (by decide)
  have hne : c ≠ 2 := by
    rintro rfl
    have htwo : 2 ∣ Nat.card curve.Point := ⟨groupOrder, hc.trans (Nat.mul_comm _ _)⟩
    obtain ⟨A, hA⟩ := exists_prime_addOrderOf_dvd_card' 2 htwo
    have hdouble : A + A = 0 := by
      rw [← two_nsmul, ← hA]
      exact addOrderOf_nsmul_eq_zero A
    rw [eq_zero_of_add_self hdouble, addOrderOf_zero] at hA
    cases hA
  have hc1 : c = 1 := by
    have hlt3 : c < 3 := Nat.lt_of_mul_lt_mul_left hlt
    have hc0 : c ≠ 0 := by
      rintro rfl
      omega
    omega
  rw [hc, hc1, Nat.mul_one]

/-- **The group order annihilates all points of the curve.** -/
theorem groupOrder_nsmul (A : curve.Point) : groupOrder • A = 0 := by
  rw [← natCard_point]
  exact card_nsmul_eq_zero'

end WitnessSigning
