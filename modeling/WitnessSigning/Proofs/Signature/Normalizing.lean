import WitnessSigning.Proofs.Signature.Twin

/-!
# What normalizing does to validity

Below the order of the curve, normalizing takes one of the two forms of a signature for the other,
and these are both valid or both not. But a signature is any pair of numbers of 256 bits, and its
second number may also be the order or above it. No such signature is valid. What normalizing
writes for the number is its distance from the order, on whichever side of the order it is; above,
that is what is left of the number modulo the order, and it is always low. So the low form is
valid exactly if the signature with its number reduced is
(`WitnessSigning.Signature.valid_normalized`).

Above the order validity is therefore not kept: a signature that is not valid gets a low form that
is accepted, as soon as its reduced number makes one
(`WitnessSigning.Signature.accepts_normalized`).
-/

namespace WitnessSigning.Signature

variable {key : PublicKey} {digest : Digest} {sig : Signature}

/-! ### Reducing the second number -/

/-- **The reduced signature**, with what is left of `s` modulo the order. -/
def reduced (sig : Signature) : Signature :=
  { sig with s := BitVec.ofNat 256 (sig.s.toNat % groupOrder) }

theorem reduced_of_lt (h : sig.s.toNat < groupOrder) : sig.reduced = sig := by
  rw [reduced, Nat.mod_eq_of_lt h, BitVec.ofNat_toNat, BitVec.setWidth_eq]

/-- A number of 256 bits has room for the order only once. -/
theorem mod_groupOrder {v : BitVec 256} (h : groupOrder ≤ v.toNat) :
    v.toNat % groupOrder = v.toNat - groupOrder := by
  have hroom : 2 ^ 256 < 2 * groupOrder := by decide
  have hlt := v.isLt
  rw [Nat.mod_eq_sub_mod h, Nat.mod_eq_of_lt (by omega)]

/-- No signature is valid whose second number is not below the order. -/
theorem valid_of_le (h : groupOrder ≤ sig.s.toNat) : valid key digest sig = false := by
  have hs : scalar? sig.s = none := dif_neg (Nat.not_lt.2 h)
  rw [valid, hs]
  cases scalar? sig.r <;> rfl

/-- The order itself leaves zero, which is no better. -/
theorem valid_reduced_of_eq (h : sig.s.toNat = groupOrder) :
    valid key digest sig.reduced = false := by
  have hs : scalar? sig.reduced.s = none := by
    rw [reduced, h, Nat.mod_self]
    rfl
  rw [valid, hs]
  cases scalar? sig.reduced.r <;> rfl

/-- **What is left above the order is low**: it is below the distance from the
order to `2 ^ 256`. -/
theorem isLow_reduced (h : groupOrder ≤ sig.s.toNat) : sig.reduced.isLow = true := by
  have hroom : 2 ^ 256 ≤ groupOrder + groupOrder / 2 := by decide
  have hlt := sig.s.isLt
  rw [isLow, reduced, decide_eq_true_iff, mod_groupOrder h, BitVec.toNat_ofNat,
    Nat.mod_eq_of_lt (by omega)]
  omega

/-! ### Normalizing on both sides of the order -/

/-- **From the order on** the low form is the reduced one. -/
theorem normalized_of_le (h : groupOrder ≤ sig.s.toNat) : sig.normalized = sig.reduced := by
  have hhigh : ¬sig.isLow = true := by
    rw [isLow, decide_eq_true_iff, Nat.not_le]
    exact (Nat.div_lt_self (by decide) (by decide)).trans_le h
  rw [normalized, if_neg hhigh, reduced, mod_groupOrder h]
  dsimp only
  split
  · next hle => rw [Nat.le_antisymm hle h]
  · rfl

/-- **What normalizing does**: up to half the order nothing, from there to the order it takes the
other form, and from the order on it reduces the number. -/
theorem normalized_cases (sig : Signature) :
    (sig.isLow = true ∧ sig.s.toNat < groupOrder ∧ sig.normalized = sig) ∨
      (sig.isLow = false ∧ sig.s.toNat < groupOrder ∧ sig.normalized = sig.twin ∧
        ∃ s : Scalar, s ≠ 0 ∧ sig.s = BitVec.ofNat 256 s.val) ∨
      (groupOrder ≤ sig.s.toNat ∧ sig.normalized = sig.reduced) := by
  rcases Nat.lt_or_ge sig.s.toNat groupOrder with hlt | hge
  · cases hlow : sig.isLow with
    | true => exact .inl ⟨rfl, hlt, if_pos hlow⟩
    | false =>
      have hhalf : groupOrder / 2 < sig.s.toNat := by
        rwa [isLow, decide_eq_false_iff_not, Nat.not_le] at hlow
      have htwin : sig.normalized = sig.twin := by
        rw [normalized, hlow, if_neg Bool.false_ne_true, twin]
        dsimp only
        rw [if_pos hlt.le]
      exact .inr (.inl ⟨rfl, hlt, htwin,
        exists_scalar (Nat.zero_lt_of_lt hhalf) (Nat.le_sub_one_of_lt hlt)⟩)
  · exact .inr (.inr ⟨hge, normalized_of_le hge⟩)

/-- **The low form is low**, for every pair of numbers. -/
theorem isLow_normalized (sig : Signature) : sig.normalized.isLow = true := by
  obtain ⟨hlow, -, h⟩ | ⟨hhigh, -, h, s, hs, hsig⟩ | ⟨hge, h⟩ := normalized_cases sig
  · rwa [h]
  · rw [h, isLow_twin hs hsig, hhigh]
    rfl
  · rw [h, isLow_reduced hge]

/-- **The low form is valid** exactly if the reduced signature is. -/
theorem valid_normalized :
    valid key digest sig.normalized = valid key digest sig.reduced := by
  obtain ⟨-, hlt, h⟩ | ⟨-, hlt, h, s, hs, hsig⟩ | ⟨-, h⟩ := normalized_cases sig
  · rw [h, reduced_of_lt hlt]
  · rw [h, reduced_of_lt hlt, valid_twin hs hsig]
  · rw [h]

/-- **Normalizing reduces the second number** as far as acceptance is concerned: the low form is
accepted exactly if the reduced signature is valid. For a signature to be valid its number has to
be reduced already, so that normalizing keeps validity up to the order, and above it as long as
the reduced signature is not valid either. -/
theorem accepts_normalized (key : PublicKey) (digest : Digest) (sig : Signature) :
    accepts key digest sig.normalized = valid key digest sig.reduced ∧
      valid key digest sig.normalized = valid key digest sig.reduced ∧
      valid key digest sig =
        (decide (sig.s.toNat < groupOrder) && valid key digest sig.reduced) ∧
      (valid key digest sig.normalized = valid key digest sig ↔
        sig.s.toNat ≤ groupOrder ∨ valid key digest sig.reduced = false) := by
  have haccepts : accepts key digest sig.normalized = valid key digest sig.reduced := by
    rw [accepts, isLow_normalized, Bool.true_and, valid_normalized]
  refine ⟨haccepts, valid_normalized, ?_⟩
  rw [valid_normalized]
  rcases Nat.lt_trichotomy sig.s.toNat groupOrder with hlt | heq | hgt
  · rw [reduced_of_lt hlt, decide_eq_true hlt, Bool.true_and]
    exact ⟨rfl, iff_of_true rfl (.inl hlt.le)⟩
  · rw [valid_reduced_of_eq heq, valid_of_le heq.ge, Bool.and_false]
    exact ⟨rfl, iff_of_true rfl (.inl heq.le)⟩
  · rw [valid_of_le hgt.le, decide_eq_false hgt.not_gt, Bool.false_and]
    exact ⟨rfl, (or_iff_right hgt.not_ge).symm⟩

/-- A signature with the order and one for its second number, by the private key one with the
nonce one: it is not valid, and its low form is accepted. -/
theorem normalized_above_order :
    let key : PublicKey :=
      ⟨Point.compressPair _ _, generator, Point.ofBytes?_compressPair generator_onCurve⟩
    let digest : Digest :=
      bigEndian 32 0x8641998106234453aa5f9d6a3178f4f7b812e00b817a776265dfdd31b93e29aa
    let sig : Signature :=
      { r := 0x79be667ef9dcbbac55a06295ce870b07029bfcdb2dce28d959f2815b16f81798
        s := 0xfffffffffffffffffffffffffffffffebaaedce6af48a03bbfd25e8cd0364142 }
    valid key digest sig = false ∧ accepts key digest sig.normalized = true ∧
      valid key digest sig.normalized ≠ valid key digest sig := by
  intro key digest sig
  have hvalid : valid key digest sig = false := valid_of_le (by decide)
  have hreduced : valid key digest sig.reduced = true := by decide +kernel
  obtain ⟨haccepts, hnormal, -⟩ := accepts_normalized key digest sig
  refine ⟨hvalid, haccepts.trans hreduced, ?_⟩
  rw [hnormal, hreduced, hvalid]
  exact Bool.noConfusion

end WitnessSigning.Signature
