import Mathlib.Data.Int.ModEq
import WitnessSigning.Proofs.Signature.Normalizing

/-!
# The low form of every pair of numbers

The low form is computed on the octets of a signature: the second number is taken away from the
order as an integer, and the size of the difference is written in exactly 32 octets again
(`WitnessSigning.Signature.normalizedExact`). The difference is negative above the order, and a
number that is too wide for the octets would be refused. That never happens, since a number of 256
bits is less than half the order above the order (`WitnessSigning.Signature.normalizedExact_eq`).

What is written is the number modulo the order, up to its sign
(`WitnessSigning.Signature.modEq_normalized`), and it is at most half the order. So the low form
is a fixed point, and the signatures that are one are those whose number was at most half the
order (`WitnessSigning.Signature.normalizedExact_spec`).
-/

namespace WitnessSigning.Signature

variable {sig : Signature}

/-- **The low form by octets**: above half the order, the size of the difference between the
order and `s`, in exactly 32 octets. -/
def normalizedExact (sig : Signature) : Except Error Signature :=
  if sig.isLow then .ok sig
  else do
    let s ← bigEndianExact 32 ((groupOrder : Int) - sig.s.toNat).natAbs
    return { sig with s := BitVec.ofNat 256 (ofBigEndian s.toList) }

/-- **The difference is never refused**: it is as wide as the signature's own number at most. -/
theorem normalizedExact_eq (sig : Signature) : sig.normalizedExact = .ok sig.normalized := by
  rw [normalizedExact, normalized]
  split
  · rfl
  · have hdistance : ((groupOrder : Int) - sig.s.toNat).natAbs =
        if sig.s.toNat ≤ groupOrder then groupOrder - sig.s.toNat
        else sig.s.toNat - groupOrder := by
      split <;> omega
    have hfits : ((groupOrder : Int) - sig.s.toNat).natAbs < capacity 32 := by
      have hcapacity : capacity 32 = 2 ^ 256 := by rfl
      have hlt := sig.s.isLt
      have horder : groupOrder < 2 ^ 256 := by decide
      omega
    dsimp only
    rw [bigEndianExact, if_pos hfits, ← hdistance]
    show Except.ok _ = _
    rw [ofBigEndian_bigEndian_of_lt hfits]

/-- To be low is to be at most half of the order less one, as the order is odd. -/
theorem isLow_eq_true_iff : sig.isLow = true ↔ sig.s.toNat ≤ (groupOrder - 1) / 2 := by
  have hhalf : groupOrder / 2 = (groupOrder - 1) / 2 := by decide
  rw [isLow, decide_eq_true_iff, hhalf]

/-- **The low form keeps the number** modulo the order, or has its negative. -/
theorem modEq_normalized (sig : Signature) :
    (sig.normalized.s.toNat : Int) ≡ sig.s.toNat [ZMOD groupOrder] ∨
      (sig.normalized.s.toNat : Int) ≡ -sig.s.toNat [ZMOD groupOrder] := by
  have horder : groupOrder < 2 ^ 256 := by decide
  rcases normalized_cases sig with ⟨-, -, h⟩ | ⟨-, hlt, h, -⟩ | ⟨-, h⟩
  · left
    rw [h]
  · right
    rw [h, twin, BitVec.toNat_ofNat, Nat.mod_eq_of_lt (by omega), Nat.cast_sub hlt.le,
      Int.modEq_iff_dvd]
    exact ⟨-1, by ring⟩
  · left
    have hrest : sig.s.toNat % groupOrder < groupOrder := Nat.mod_lt _ (by decide)
    rw [h, reduced, BitVec.toNat_ofNat, Nat.mod_eq_of_lt (by omega), Int.natCast_mod]
    exact Int.mod_modEq _ _

/-- **The low form of every pair of numbers.** It is always found, keeps the first number, and
has a second one of at most half the order, which is the old one or its negative modulo the
order. It is the signature itself exactly if that number was at most half the order, so taking
the low form again changes nothing. -/
theorem normalizedExact_spec (sig : Signature) :
    sig.normalizedExact = .ok sig.normalized ∧
      sig.normalized.r = sig.r ∧
      sig.normalized.s.toNat ≤ (groupOrder - 1) / 2 ∧
      ((sig.normalized.s.toNat : Int) ≡ sig.s.toNat [ZMOD groupOrder] ∨
        (sig.normalized.s.toNat : Int) ≡ -sig.s.toNat [ZMOD groupOrder]) ∧
      (sig.normalized = sig ↔ sig.s.toNat ≤ (groupOrder - 1) / 2) ∧
      sig.normalized.normalized = sig.normalized ∧
      sig.normalized.isLow = true := by
  have hlow : sig.normalized.isLow = true := isLow_normalized sig
  have hr : sig.normalized.r = sig.r := by
    rw [normalized]
    split <;> rfl
  refine ⟨normalizedExact_eq sig, hr, isLow_eq_true_iff.1 hlow, modEq_normalized sig, ?_,
    if_pos hlow, hlow⟩
  rw [← isLow_eq_true_iff]
  constructor
  · intro h
    rwa [h] at hlow
  · exact fun h => if_pos h

end WitnessSigning.Signature
