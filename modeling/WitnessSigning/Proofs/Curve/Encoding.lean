import WitnessSigning.Curve.Encoding
import WitnessSigning.Proofs.Curve.Group

/-!
# The compressed form of a point

The compressed form of a point of the curve determines the point: the first coordinate is written
out, it leaves two values for the second one, and these are of different parity
(`WitnessSigning.Point.compress_injective`). Reading finds the point again, because the power that
is tried as a root is one whenever there is any (`WitnessSigning.squareRoot?_mul_self`), and its
parity tells which of the two roots to take (`WitnessSigning.Point.ofBytes?_compressPair`). Nothing
off the curve is ever read (`WitnessSigning.Point.onCurve_of_ofBytes?`), and a compressed form is
refused only if no point has its first coordinate (`WitnessSigning.Point.isSome_ofBytes?_iff`).
-/

namespace WitnessSigning

/-! ### Roots -/

/-- **A coordinate and its negative** are of different parity, as the modulus is odd. -/
theorem isOdd_neg {y : Coordinate} (hy : y ≠ 0) : isOdd (-y) = !isOdd y := by
  have hpos : 0 < y.val := Nat.pos_of_ne_zero fun h => hy (Fin.ext h)
  have hlt := y.isLt
  have hodd : fieldPrime % 2 = 1 := by decide
  have hval : (-y).val = fieldPrime - y.val := by
    rw [Fin.neg_def]
    exact Nat.mod_eq_of_lt (by omega)
  rw [isOdd, isOdd, hval, ← decide_not, decide_eq_decide]
  omega

/-- **A root of a square is found**, up to its sign. -/
theorem squareRoot?_mul_self (y : Coordinate) :
    ∃ z, squareRoot? (y * y) = some z ∧ (z = y ∨ z = -y) := by
  have hpower : power (y * y) ((fieldPrime + 1) / 4) * power (y * y) ((fieldPrime + 1) / 4) =
      y * y := by
    have he : (fieldPrime + 1) / 4 + (fieldPrime + 1) / 4 + ((fieldPrime + 1) / 4 +
        (fieldPrime + 1) / 4) = fieldPrime + 1 := by decide
    -- four times the exponent is one above the modulus, so by Fermat the root squares to the square
    rw [← residue_inj, residue_mul, residue_power _ (by decide), residue_mul, mul_pow, ← pow_add,
      ← pow_add, he, pow_succ, ZMod.pow_card]
  refine ⟨power (y * y) ((fieldPrime + 1) / 4), ?_, ?_⟩
  · simp only [squareRoot?, hpower, if_true]
  · rw [← residue_inj, residue_mul, residue_mul] at hpower
    rw [← residue_inj, ← residue_inj, residue_neg]
    exact mul_self_eq_mul_self_iff.1 hpower

theorem mul_self_of_squareRoot? {a y : Coordinate} (h : squareRoot? a = some y) : y * y = a := by
  rw [squareRoot?] at h
  obtain ⟨hsq, h⟩ := Option.ite_none_right_eq_some.1 h
  exact Option.some.inj h ▸ hsq

/-- **Squares have a root** and nothing else has. -/
theorem isSome_squareRoot?_iff {a : Coordinate} :
    (squareRoot? a).isSome ↔ IsSquare (residue a) := by
  constructor
  · intro h
    obtain ⟨y, hy⟩ := Option.isSome_iff_exists.1 h
    rw [← mul_self_of_squareRoot? hy, residue_mul]
    exact IsSquare.mul_self _
  · rintro ⟨r, hr⟩
    have ha : a = ofResidue r * ofResidue r := by
      rw [← residue_inj, residue_mul, residue_ofResidue, hr]
    obtain ⟨z, hz, -⟩ := squareRoot?_mul_self (ofResidue r)
    rw [ha, hz]
    rfl

theorem bigEndian_injective {w v v' : Nat} (h : v < capacity w) (h' : v' < capacity w)
    (he : bigEndian w v = bigEndian w v') : v = v' := by
  rw [← ofBigEndian_bigEndian_of_lt h, he, ofBigEndian_bigEndian_of_lt h']

/-- A coordinate fits in 32 octets. -/
theorem coordinate_lt_capacity (x : Coordinate) : x.val < capacity 32 :=
  x.isLt.trans (by decide)

namespace Point

/-! ### Writing -/

theorem compressPair_injective {x y x' y' : Coordinate} (h : (affine x y).OnCurve)
    (h' : (affine x' y').OnCurve) (he : compressPair x y = compressPair x' y') :
    x = x' ∧ y = y' := by
  have hlist := congrArg Octets.toList he
  obtain ⟨htag, hoctets⟩ := List.cons.inj hlist
  obtain rfl : x = x' := Fin.ext (bigEndian_injective (coordinate_lt_capacity x)
    (coordinate_lt_capacity x') (Octets.ext_toList hoctets))
  refine ⟨rfl, ?_⟩
  -- the tag tells the two roots apart
  have hparity : isOdd y = isOdd y' := by
    cases hy : isOdd y <;> cases hy' : isOdd y' <;> simp [hy, hy'] at htag ⊢
  have hsq : residue y ^ 2 = residue y' ^ 2 :=
    (onCurve_affine_iff.1 h).trans (onCurve_affine_iff.1 h').symm
  rcases sq_eq_sq_iff_eq_or_eq_neg.1 hsq with hy | hy
  · exact residue_injective hy
  · rw [← residue_neg, residue_inj] at hy
    rcases eq_or_ne y' 0 with rfl | h0
    · rw [hy, neg_zero]
    · rw [hy, isOdd_neg h0] at hparity
      cases hy' : isOdd y' <;> simp [hy'] at hparity

/-- **The compressed form determines the point.** -/
theorem compress_injective {P Q : Point} {encoding : Octets 33} (hP : P.OnCurve) (hQ : Q.OnCurve)
    (h : P.compress = .ok encoding) (h' : Q.compress = .ok encoding) : P = Q := by
  cases P with
  | infinity => cases h
  | affine x y =>
    cases Q with
    | infinity => cases h'
    | affine x' y' =>
      obtain ⟨rfl, rfl⟩ := compressPair_injective hP hQ (Except.ok.inj (h.trans h'.symm))
      rfl

/-! ### Reading -/

/-- **A coordinate is read** from 32 octets of a number below the field prime. -/
theorem coordinate?_eq_some_iff {bs : Bytes} {x : Coordinate} :
    coordinate? bs = some x ↔ bs.length = 32 ∧ ofBigEndian bs = x.val := by
  rw [coordinate?]
  constructor
  · intro h
    obtain ⟨hl, h⟩ := Option.ite_none_right_eq_some.1 h
    split at h
    · cases h
      exact ⟨hl, rfl⟩
    · cases h
  · rintro ⟨hl, hx⟩
    rw [if_pos hl, dif_pos (hx ▸ x.isLt)]
    exact congrArg some (Fin.ext hx)

theorem coordinate?_bigEndian (x : Coordinate) :
    coordinate? (bigEndian 32 x.val).toList = some x :=
  coordinate?_eq_some_iff.2
    ⟨(bigEndian 32 x.val).length_toList, ofBigEndian_bigEndian_of_lt (coordinate_lt_capacity x)⟩

/-- **A point is found from its first coordinate** and the parity of the second one. -/
theorem lift?_isOdd {x y : Coordinate} (h : (affine x y).OnCurve) :
    lift? x (isOdd y) = some (affine x y) := by
  obtain ⟨z, hz, hzy⟩ := squareRoot?_mul_self y
  have hcubic : y * y = curveCubic x := h
  rw [lift?, ← hcubic, hz, Option.map_some]
  refine congrArg (fun root => some (affine x root)) ?_
  rcases hzy with rfl | rfl
  · exact if_pos rfl
  · rcases eq_or_ne y 0 with rfl | hy
    · simp
    · rw [isOdd_neg hy, if_neg (by simp), neg_neg]

/-- What is found from a first coordinate lies on the curve, whichever root is taken. -/
theorem onCurve_of_lift? {x : Coordinate} {odd : Bool} {P : Point} (h : lift? x odd = some P) :
    P.OnCurve := by
  obtain ⟨y, hy, rfl⟩ := Option.map_eq_some_iff.1 h
  have hroot : y * y = curveCubic x := mul_self_of_squareRoot? hy
  have hcurve : residue y ^ 2 = residue x ^ 3 + 7 := onCurve_affine_iff.1 hroot
  split
  · exact hroot
  · rw [onCurve_affine_iff, residue_neg, neg_sq]
    exact hcurve

theorem isSome_lift?_iff {x : Coordinate} {odd : Bool} :
    (lift? x odd).isSome ↔ IsSquare (residue x ^ 3 + 7) := by
  rw [lift?, Option.isSome_map, isSome_squareRoot?_iff, residue_curveCubic]

/-- **What is read behind the tag of a compressed form** is the first coordinate of some point. -/
theorem isSome_ofBytes?_iff {tag : UInt8} {rest : Bytes} (htag : tag = 2 ∨ tag = 3) :
    (ofBytes? (tag :: rest)).isSome ↔ rest.length = 32 ∧ ofBigEndian rest < fieldPrime ∧
      IsSquare ((ofBigEndian rest : ZMod fieldPrime) ^ 3 + 7) := by
  have h0 : tag ≠ 0 := by
    rintro rfl
    revert htag
    decide
  have hread : ofBytes? (tag :: rest) = (coordinate? rest).bind (lift? · (tag = 3)) := by
    rw [ofBytes?, if_neg h0, if_pos htag]
    rfl
  rw [hread, Option.isSome_bind, Option.any_eq_true]
  simp only [isSome_lift?_iff, coordinate?_eq_some_iff]
  constructor
  · rintro ⟨x, ⟨hl, hx⟩, hsq⟩
    refine ⟨hl, hx ▸ x.isLt, ?_⟩
    rw [hx]
    exact hsq
  · rintro ⟨hl, hlt, hsq⟩
    exact ⟨⟨_, hlt⟩, ⟨hl, rfl⟩, hsq⟩

/-- **What is read as a point** lies on the curve, in any of its forms. -/
theorem onCurve_of_ofBytes? {bs : Bytes} {P : Point} (h : ofBytes? bs = some P) : P.OnCurve := by
  cases bs with
  | nil => cases h
  | cons tag rest =>
    rw [ofBytes?] at h
    split at h
    · obtain ⟨-, hP⟩ := Option.ite_none_right_eq_some.1 h
      cases hP
      trivial
    split at h
    · obtain ⟨x, -, hP⟩ := Option.bind_eq_some_iff.1 h
      exact onCurve_of_lift? hP
    split at h
    · obtain ⟨x, -, h⟩ := Option.bind_eq_some_iff.1 h
      obtain ⟨y, -, h⟩ := Option.bind_eq_some_iff.1 h
      obtain ⟨⟨hcurve, -⟩, hP⟩ := Option.ite_none_right_eq_some.1 h
      cases hP
      exact hcurve
    · cases h

/-- **The compressed form of a point of the curve is read as the point.** -/
theorem ofBytes?_compressPair {x y : Coordinate} (h : (affine x y).OnCurve) :
    ofBytes? (compressPair x y).toList = some (affine x y) := by
  have hread := lift?_isOdd h
  rw [compressPair]
  cases hy : isOdd y with
  | false =>
    rw [hy] at hread
    simp [ofBytes?, coordinate?_bigEndian, hread]
  | true =>
    rw [hy] at hread
    simp [ofBytes?, coordinate?_bigEndian, hread]

end Point

end WitnessSigning
