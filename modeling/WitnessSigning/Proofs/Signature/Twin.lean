import WitnessSigning.Proofs.Curve.Order
import WitnessSigning.Proofs.Signature.Equation

/-!
# The two forms of a signature

Whoever sees a signature can turn it into another one without the private key, by taking `n - s`
for `s` (`WitnessSigning.Signature.twin`). The equation does not tell the two apart, since the
group order annihilates the point of every public key (`WitnessSigning.Signature.valid_twin`). As
the group order is odd, one of the two numbers is at most half of it and the other one is not
(`WitnessSigning.Signature.isLow_twin`). So of the two forms of a valid signature one is accepted,
which is the low form of either, and the other one is not.
-/

namespace WitnessSigning.Signature

variable {key : PublicKey} {digest : Digest} {sig : Signature}

/-- **The other form of a signature**, with `n - s` for `s`. -/
def twin (sig : Signature) : Signature :=
  { sig with s := BitVec.ofNat 256 (groupOrder - sig.s.toNat) }

/-- A second number from one to below the order is that of a scalar. -/
theorem exists_scalar (h : 1 ≤ sig.s.toNat) (h' : sig.s.toNat ≤ groupOrder - 1) :
    ∃ s : Scalar, s ≠ 0 ∧ sig.s = BitVec.ofNat 256 s.val := by
  have hlt : sig.s.toNat < groupOrder := h'.trans_lt (by decide)
  refine ⟨⟨sig.s.toNat, hlt⟩, ?_, ?_⟩
  · rw [← Fin.val_ne_zero_iff]
    exact Nat.ne_of_gt h
  · rw [BitVec.ofNat_toNat, BitVec.setWidth_eq]

/-- The other form has the negative scalar. -/
theorem s_twin {s : Scalar} (hs : s ≠ 0) (h : sig.s = BitVec.ofNat 256 s.val) :
    sig.twin.s = BitVec.ofNat 256 (-s).val := by
  rw [twin, h, toNat_ofNat_scalar, val_neg_scalar hs]

/-- **A signature and its other form** are both valid or both not. -/
theorem valid_twin {s : Scalar} (hs : s ≠ 0) (h : sig.s = BitVec.ofNat 256 s.val) :
    valid key digest sig.twin = valid key digest sig := by
  obtain ⟨A, hA⟩ := Point.onCurve_iff_exists.1 key.onCurve_point
  have hr : sig.twin.r = sig.r := rfl
  rw [valid, valid, hr, s_twin hs h, h, scalar?_ofNat hs, scalar?_ofNat (neg_ne_zero.2 hs)]
  cases scalar? sig.r with
  | none => rfl
  | some r =>
    rw [← hA]
    exact equationHolds_neg (groupOrder_nsmul A) _ _ _

/-- **Of the two forms one is low**, as the order is odd. -/
theorem isLow_twin {s : Scalar} (hs : s ≠ 0) (h : sig.s = BitVec.ofNat 256 s.val) :
    sig.twin.isLow = !sig.isLow := by
  have hodd : groupOrder % 2 = 1 := by decide
  have hlt := s.isLt
  rw [isLow, isLow, s_twin hs h, h, toNat_ofNat_scalar, toNat_ofNat_scalar, val_neg_scalar hs,
    ← decide_not, decide_eq_decide]
  omega

/-- **Normalizing keeps the low form** and no other one. -/
theorem normalized_eq_self_iff {s : Scalar} (hs : s ≠ 0) (h : sig.s = BitVec.ofNat 256 s.val) :
    sig.normalized = sig ↔ sig.isLow = true := by
  rw [normalized]
  split
  · next hlow => exact iff_of_true rfl hlow
  · next hhigh =>
    refine iff_of_false (fun hsame => ?_) hhigh
    have hnumber := congrArg (fun form => form.s.toNat) hsame
    have hle : s.val ≤ groupOrder := s.isLt.le
    simp only [h, toNat_ofNat_scalar, hle, if_true, ← val_neg_scalar hs] at hnumber
    -- the number would be as far from zero as from the order
    have hodd : groupOrder % 2 = 1 := by decide
    rw [val_neg_scalar hs] at hnumber
    omega

/-- **Of the two forms of a signature at most one is accepted.** Both are valid or both are not,
one of them is low and the other one is not. If they are valid, exactly one is accepted, and
otherwise neither; the accepted form is the one that normalizing keeps. -/
theorem accepts_one_form (key : PublicKey) (digest : Digest) (sig : Signature)
    (h : 1 ≤ sig.s.toNat ∧ sig.s.toNat ≤ groupOrder - 1) :
    valid key digest sig.twin = valid key digest sig ∧
      sig.twin.isLow = !sig.isLow ∧
      (valid key digest sig = true → accepts key digest sig.twin = !accepts key digest sig) ∧
      (valid key digest sig = false →
        accepts key digest sig = false ∧ accepts key digest sig.twin = false) ∧
      ∀ form ∈ [sig, sig.twin],
        accepts key digest form = true ↔ valid key digest sig = true ∧ form.normalized = form := by
  obtain ⟨s, hs, hsig⟩ := exists_scalar h.1 h.2
  have hvalid : valid key digest sig.twin = valid key digest sig := valid_twin hs hsig
  have hlow := isLow_twin hs hsig
  refine ⟨hvalid, hlow, fun hv => ?_, fun hv => ?_, ?_⟩
  · rw [accepts, accepts, hvalid, hv, hlow, Bool.and_true, Bool.and_true]
  · rw [accepts, accepts, hvalid, hv, Bool.and_false, Bool.and_false]
    exact ⟨rfl, rfl⟩
  · have hnormal := normalized_eq_self_iff hs hsig
    have hnormal' := normalized_eq_self_iff (neg_ne_zero.2 hs) (s_twin hs hsig)
    rw [List.forall_mem_cons, List.forall_mem_singleton, accepts, accepts, hvalid, hnormal,
      hnormal', Bool.and_eq_true, Bool.and_eq_true]
    exact ⟨and_comm, and_comm⟩

/-- A signature by the private key one with the nonce one, above half the order: it is valid
but only its other form is accepted. -/
theorem accepts_one_form_high :
    let key : PublicKey :=
      ⟨Point.compressPair _ _, generator, Point.ofBytes?_compressPair generator_onCurve⟩
    let digest : Digest := Octets.replicate 32 7
    let sig : Signature :=
      { r := 0x79be667ef9dcbbac55a06295ce870b07029bfcdb2dce28d959f2815b16f81798
        s := 0x80c56d8600e3c2b35ca7699cd58e120e09a303e234d52fe060f988621dff1e9f }
    (1 ≤ sig.s.toNat ∧ sig.s.toNat ≤ groupOrder - 1) ∧ valid key digest sig = true ∧
      accepts key digest sig = false ∧ accepts key digest sig.twin = true := by
  intro key digest sig
  have hrange : 1 ≤ sig.s.toNat ∧ sig.s.toNat ≤ groupOrder - 1 := by decide
  have hvalid : valid key digest sig = true := by decide +kernel
  have hhigh : sig.isLow = false := by decide
  obtain ⟨-, -, hone, -⟩ := accepts_one_form key digest sig hrange
  have hrefused : accepts key digest sig = false := by rw [accepts, hhigh, Bool.false_and]
  exact ⟨hrange, hvalid, hrefused, by rw [hone hvalid, hrefused]; rfl⟩

end WitnessSigning.Signature
