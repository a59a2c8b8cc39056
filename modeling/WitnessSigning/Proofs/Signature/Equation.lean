import WitnessSigning.Proofs.Key.Public
import WitnessSigning.Signature.Sign

/-!
# Whatever is signed is accepted

With `s = (z + r d) / k`, the point `(z / s) G + (r / s) (d G)` is `k G`, so a signature satisfies
the equation that it is checked by (`WitnessSigning.Point.combine_generator`). The low form may
have `-s` instead of `s`, which turns this point into its negative
(`WitnessSigning.Signature.equationHolds_neg`); a point and its negative have the same first
coordinate, and nothing else is compared. Together with the ranges of the two numbers this makes
every signature that is returned an accepted one (`WitnessSigning.Signature.accepts_of_sign`).

How many nonces are tried does not matter for any of this, nor for the signature that is found: with
more of them it is the same one (`WitnessSigning.Signature.signWithin_mono`).
-/

namespace WitnessSigning

-- an inverse that is unfolded runs through the 256 bits of its exponent
attribute [local irreducible] inverse

/-! ### Multiples of torsion points -/

section Torsion

variable {A : curve.Point}

/-- Of a point whose multiple by the group order is infinity, multiples are taken modulo the group
order. -/
theorem nsmul_eq_of_natCast_eq (hA : groupOrder • A = 0) {a b : Nat}
    (h : (a : ZMod groupOrder) = b) : a • A = b • A := by
  have hmod : a ≡ b [MOD groupOrder] := (ZMod.natCast_eq_natCast_iff _ _ _).1 h
  exact nsmul_eq_nsmul_iff_modEq.2 (hmod.of_dvd (addOrderOf_dvd_of_nsmul_eq_zero hA))

theorem neg_val_nsmul (hA : groupOrder • A = 0) (a : Scalar) : (-a).val • A = -(a.val • A) := by
  refine eq_neg_of_add_eq_zero_left ?_
  have hcast : (((-a).val + a.val : Nat) : ZMod groupOrder) = (0 : Nat) := by
    rw [Nat.cast_add, Nat.cast_zero]
    exact (congrArg (· + residue a) (residue_neg a)).trans (neg_add_cancel _)
  rw [← add_nsmul, nsmul_eq_of_natCast_eq hA hcast, zero_nsmul]

end Torsion

/-- **The group order annihilates the multiples of the generator.** -/
theorem groupOrder_nsmul_generator {G : curve.Point} (hG : Point.ofGroup G = generator) :
    groupOrder • G = 0 := by
  rw [← addOrderOf_generator hG]
  exact addOrderOf_nsmul_eq_zero G

/-! ### First coordinates -/

namespace Point

/-- **What a signature keeps of a point**: the first coordinate modulo the group order. -/
def first? : Point → Option Scalar
  | infinity => none
  | affine x _ => some (Fin.ofNat groupOrder x.val)

/-- A point and its negative have the same first coordinate. -/
theorem first?_ofGroup_neg (A : curve.Point) : (ofGroup (-A)).first? = (ofGroup A).first? := by
  cases A with
  | zero => rfl
  | some x y h => rfl

/-- **The sum of multiples** is that in the group. -/
theorem combine_ofGroup (k l : Scalar) (A B : curve.Point) :
    combine k (ofGroup A) l (ofGroup B) = ofGroup (k.val • A + l.val • B) :=
  (((represents_ofPoint A).multiply k).add ((represents_ofPoint B).multiply l)).toPoint_eq

/-- **The point that a signature is checked by** is the multiple of the generator by its nonce. -/
theorem combine_generator {d z r s k : Scalar} (hk : k ≠ 0) (hs : s = inverse k * (z + r * d))
    (hs0 : s ≠ 0) :
    combine (z * inverse s) generator (r * inverse s) (generator.multiply d) =
      generator.multiply k := by
  obtain ⟨G, hG⟩ := onCurve_iff_exists.1 generator_onCurve
  have hk' : residue k ≠ 0 := residue_eq_zero_iff.not.2 hk
  have hs' : residue s ≠ 0 := residue_eq_zero_iff.not.2 hs0
  have hnonce : residue s * residue k = residue z + residue r * residue d := by
    rw [hs, residue_mul, residue_inverse_scalar, residue_add, residue_mul]
    field_simp
  have hcast : (((z * inverse s).val + d.val * (r * inverse s).val : Nat) : ZMod groupOrder) =
      k.val := by
    rw [Nat.cast_add, Nat.cast_mul]
    show residue (z * inverse s) + residue d * residue (r * inverse s) = residue k
    rw [residue_mul, residue_mul, residue_inverse_scalar]
    field_simp
    linear_combination -hnonce
  rw [← hG, multiply_ofGroup, multiply_ofGroup, combine_ofGroup, ← mul_nsmul, ← add_nsmul,
    nsmul_eq_of_natCast_eq (groupOrder_nsmul_generator hG) hcast]

end Point

namespace Signature

/-! ### The equation -/

theorem equationHolds_iff {Q : Point} {z r s : Scalar} : equationHolds Q z r s = true ↔
    (Point.combine (z * inverse s) generator (r * inverse s) Q).first? = some r := by
  unfold equationHolds
  dsimp only
  generalize Point.combine (z * inverse s) generator (r * inverse s) Q = P
  cases P with
  | infinity => simp [Point.first?]
  | affine x y => simp [Point.first?]

theorem inverse_neg (s : Scalar) : inverse (-s) = -inverse s := by
  rw [← residue_inj, residue_neg, residue_inverse_scalar, residue_inverse_scalar, residue_neg,
    inv_neg]

/-- **The equation does not tell `s` from `-s`**, for a key whose multiple by the group order is
infinity. -/
theorem equationHolds_neg {A : curve.Point} (hA : groupOrder • A = 0) (z r s : Scalar) :
    equationHolds (Point.ofGroup A) z r (-s) = equationHolds (Point.ofGroup A) z r s := by
  obtain ⟨G, hG⟩ := Point.onCurve_iff_exists.1 generator_onCurve
  have hmul : ∀ a : Scalar, a * inverse (-s) = -(a * inverse s) := by
    intro a
    rw [← residue_inj, inverse_neg, residue_mul, residue_neg, residue_neg, residue_mul, mul_neg]
  rw [Bool.eq_iff_iff, equationHolds_iff, equationHolds_iff, ← hG, hmul, hmul,
    Point.combine_ofGroup, Point.combine_ofGroup,
    neg_val_nsmul (groupOrder_nsmul_generator hG), neg_val_nsmul hA, ← neg_add,
    Point.first?_ofGroup_neg]

/-! ### Signatures by scalars -/

/-- The signature of two scalars. -/
def ofScalars (r s : Scalar) : Signature where
  r := BitVec.ofNat 256 r.val
  s := BitVec.ofNat 256 s.val

theorem toNat_ofNat_scalar (a : Scalar) : (BitVec.ofNat 256 a.val).toNat = a.val := by
  rw [BitVec.toNat_ofNat]
  exact Nat.mod_eq_of_lt (a.isLt.trans (by decide))

theorem scalar?_ofNat {a : Scalar} (ha : a ≠ 0) : scalar? (BitVec.ofNat 256 a.val) = some a := by
  have hval : a.val ≠ 0 := Fin.val_ne_zero_iff.2 ha
  rw [scalar?, toNat_ofNat_scalar, dif_pos a.isLt, if_neg hval]

/-- Scalars other than zero make a valid signature exactly if the equation holds. -/
theorem valid_ofScalars {key : PublicKey} {digest : Digest} {r s : Scalar} (hr : r ≠ 0)
    (hs : s ≠ 0) :
    valid key digest (ofScalars r s) = equationHolds key.point (digestScalar digest) r s := by
  rw [valid, ofScalars, scalar?_ofNat hr, scalar?_ofNat hs]

theorem isLow_ofScalars (r s : Scalar) :
    (ofScalars r s).isLow = decide (s.val ≤ groupOrder / 2) := by
  rw [isLow, ofScalars, toNat_ofNat_scalar]

theorem val_neg_scalar {s : Scalar} (hs : s ≠ 0) : (-s).val = groupOrder - s.val := by
  have hpos : 0 < s.val := Nat.pos_of_ne_zero (Fin.val_ne_zero_iff.2 hs)
  have hlt := s.isLt
  rw [Fin.neg_def]
  exact Nat.mod_eq_of_lt (by omega)

/-- **The low form** has `s` or `-s`, whichever is at most half the order. -/
theorem exists_normalized_ofScalars (r : Scalar) {s : Scalar} (hs : s ≠ 0) :
    ∃ s' : Scalar, (ofScalars r s).normalized = ofScalars r s' ∧ (s' = s ∨ s' = -s) ∧
      s'.val ≤ groupOrder / 2 := by
  rw [normalized, isLow_ofScalars]
  rcases Nat.lt_or_ge (groupOrder / 2) s.val with hhigh | hlow
  · have hle : s.val ≤ groupOrder := s.isLt.le
    have hhalf : groupOrder - s.val ≤ groupOrder / 2 := by omega
    refine ⟨-s, ?_, .inr rfl, (val_neg_scalar hs).trans_le hhalf⟩
    rw [if_neg (by simpa using hhigh)]
    simp only [ofScalars, toNat_ofNat_scalar, hle, if_true, val_neg_scalar hs]
  · exact ⟨s, if_pos (by simpa using hlow), .inl rfl, hlow⟩

/-! ### Signing -/

/-- **A candidate that is not refused** is a nonce from which both numbers come out other than
zero. -/
theorem withNonce?_eq_some_iff {d z k : Scalar} {sig : Signature} :
    withNonce? d z k = some sig ↔ ∃ r s, (generator.multiply k).first? = some r ∧
      s = inverse k * (z + r * d) ∧ (r ≠ 0 ∧ s ≠ 0) ∧ sig = ofScalars r s := by
  rw [withNonce?]
  cases generator.multiply k with
  | infinity => exact iff_of_false (nomatch ·) fun ⟨_, _, h, _⟩ => nomatch h
  | affine x y =>
    simp only [Point.first?, Option.some.injEq, exists_and_left, exists_eq_left']
    split
    · next hzero =>
      refine iff_of_false (nomatch ·) ?_
      rintro ⟨s, rfl, ⟨hr, hs⟩, -⟩
      exact hzero.elim hr hs
    · next hzero =>
      rw [Option.some.injEq]
      constructor
      · rintro rfl
        exact ⟨_, rfl, not_or.1 hzero, rfl⟩
      · rintro ⟨s, rfl, -, rfl⟩
        rfl

theorem withCandidate?_eq_some {d z : Scalar} {candidate : Octets 32} {sig : Signature}
    (h : withCandidate? d z candidate = some sig) : ∃ k ≠ 0, withNonce? d z k = some sig := by
  rw [withCandidate?] at h
  split at h
  · next hlt =>
    split at h
    · cases h
    · next h0 => exact ⟨_, fun hk => h0 (congrArg Fin.val hk), h⟩
  · cases h

/-- **What is found comes from a nonce**, wherever in the chain it was drawn. -/
theorem search_eq_ok {d z : Scalar} {tries : Nat} {chain : NonceChain} {sig : Signature}
    (h : search d z tries chain = .ok sig) : ∃ k ≠ 0, withNonce? d z k = some sig := by
  induction tries generalizing chain with
  | zero => cases h
  | succ tries ih =>
    rw [search] at h
    split at h
    · next sig' hsig =>
      cases h
      exact withCandidate?_eq_some hsig
    · exact ih h

/-- More candidates behind the one that serves are never tried. -/
theorem search_mono {d z : Scalar} {tries tries' : Nat} {chain : NonceChain} {sig : Signature}
    (h : search d z tries chain = .ok sig) (hle : tries ≤ tries') :
    search d z tries' chain = .ok sig := by
  induction tries generalizing chain tries' with
  | zero => cases h
  | succ tries ih =>
    obtain ⟨more, rfl⟩ := Nat.exists_eq_add_of_lt hle
    rw [search] at h ⊢
    split at h
    · exact h
    · exact ih h (Nat.le_add_right _ _)

/-- **Trying more nonces** changes no signature that is found. -/
theorem signWithin_mono {key : PrivateKey} {digest : Digest} {sig : Signature} {tries tries' : Nat}
    (h : signWithin tries key digest = .ok sig) (hle : tries ≤ tries') :
    signWithin tries' key digest = .ok sig := by
  obtain ⟨raw, hraw, hsig⟩ := Error.bind_eq_ok.1 h
  exact Error.bind_eq_ok.2 ⟨raw, search_mono hraw hle, hsig⟩

variable {key : PrivateKey} {digest : Digest} {sig : Signature} {tries : Nat}

/-- **The numbers of a signature** that is returned are scalars other than zero, the
second one is at most half the order, and they satisfy the equation of the public
key, which every private key has. -/
theorem signWithin_eq_ok (h : signWithin tries key digest = .ok sig) :
    ∃ (r s : Scalar) (participant : PublicKey), sig = ofScalars r s ∧ (r ≠ 0 ∧ s ≠ 0) ∧
      s.val ≤ groupOrder / 2 ∧ key.publicKey = .ok participant ∧
        equationHolds participant.point (digestScalar digest) r s = true := by
  obtain ⟨raw, hraw, hsig⟩ := Error.bind_eq_ok.1 h
  obtain rfl := Except.ok.inj hsig
  obtain ⟨k, hk, hnonce⟩ := search_eq_ok hraw
  obtain ⟨r, s, hr, hs, ⟨hr0, hs0⟩, rfl⟩ := withNonce?_eq_some_iff.1 hnonce
  obtain ⟨s', hnormal, hsign, hlow⟩ := exists_normalized_ofScalars r hs0
  obtain ⟨participant, hpublic, hpoint⟩ := key.exists_publicKey
  -- the signature as it came out of the nonce satisfies the equation, and so does the low one
  have hequation : equationHolds participant.point (digestScalar digest) r s = true := by
    rw [equationHolds_iff, hpoint, Point.combine_generator hk hs hs0, hr]
  refine ⟨r, s', participant, hnormal, ⟨hr0, ?_⟩, hlow, hpublic, ?_⟩
  · rcases hsign with rfl | rfl
    · exact hs0
    · exact neg_ne_zero.2 hs0
  · rcases hsign with rfl | rfl
    · exact hequation
    · obtain ⟨G, hG⟩ := Point.onCurve_iff_exists.1 generator_onCurve
      have htorsion : groupOrder • key.scalar.val • G = 0 := by
        rw [smul_comm, groupOrder_nsmul_generator hG, nsmul_zero]
      rw [hpoint, ← hG, Point.multiply_ofGroup] at hequation ⊢
      exact (equationHolds_neg htorsion _ _ _).trans hequation

/-- **The public key accepts** what its private key signs. -/
theorem exists_accepts (h : signWithin tries key digest = .ok sig) :
    ∃ participant, key.publicKey = .ok participant ∧ accepts participant digest sig = true := by
  obtain ⟨r, s, participant, rfl, ⟨hr, hs⟩, hlow, hpublic, hequation⟩ := signWithin_eq_ok h
  refine ⟨participant, hpublic, ?_⟩
  rw [accepts, isLow_ofScalars, decide_eq_true hlow, valid_ofScalars hr hs, hequation]
  rfl

/-- **Signing is sound**, however many nonces it tries; `sign` tries `maxTries`. Whatever digest
is signed, also one that stands for a number above the order or for a multiple of it: both numbers
of a signature that is returned are scalars other than zero, the second one is at most half the
order, and the public key, which every private key has, accepts it. -/
theorem accepts_of_sign (h : signWithin tries key digest = .ok sig) :
    (1 ≤ sig.r.toNat ∧ sig.r.toNat ≤ groupOrder - 1) ∧
      (1 ≤ sig.s.toNat ∧ sig.s.toNat ≤ (groupOrder - 1) / 2) ∧
        ∃ participant, key.publicKey = .ok participant ∧ accepts participant digest sig = true := by
  obtain ⟨r, s, -, hsig, ⟨hr, hs⟩, hlow, -⟩ := signWithin_eq_ok h
  have hrpos : 0 < r.val := Nat.pos_of_ne_zero (Fin.val_ne_zero_iff.2 hr)
  have hspos : 0 < s.val := Nat.pos_of_ne_zero (Fin.val_ne_zero_iff.2 hs)
  have hrlt := r.isLt
  have hhalf : groupOrder / 2 = (groupOrder - 1) / 2 := by decide
  refine ⟨?_, ?_, exists_accepts h⟩
  · simp only [hsig, ofScalars, toNat_ofNat_scalar]
    omega
  · simp only [hsig, ofScalars, toNat_ofNat_scalar]
    omega

/-- The private key one signs a digest that stands for the order itself, and the number that comes
out of the nonce is above half the order. -/
theorem accepts_of_sign_order :
    let key : PrivateKey :=
      { scalar := 1, scalar_ne_zero := by decide, network := .mainnet, compressed := true }
    let digest : Digest := bigEndian 32 groupOrder
    let sig : Signature :=
      { r := 0xa0b37f8fba683cc68f6574cd43b39f0343a50008bf6ccea9d13231d9e7e2e1e4
        s := 0x11edc8d307254296264aebfc3dc76cd8b668373a072fd64665b50000e9fcce52 }
    sign key digest = .ok sig ∧ sig.s.toNat ≤ (groupOrder - 1) / 2 ∧
      ∃ participant, key.publicKey = .ok participant ∧ accepts participant digest sig = true := by
  intro key digest sig
  have hsign : sign key digest = .ok sig := by decide +kernel
  obtain ⟨-, ⟨-, hlow⟩, haccepts⟩ := accepts_of_sign hsign
  exact ⟨hsign, hlow, haccepts⟩

end Signature

end WitnessSigning
