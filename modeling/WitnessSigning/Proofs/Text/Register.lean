import Mathlib.Algebra.BigOperators.Intervals
import Mathlib.Algebra.CharP.Two
import Mathlib.Algebra.Field.ZMod
import Mathlib.FieldTheory.IsAlgClosed.AlgebraicClosure
import Mathlib.Tactic.NormNum.Prime
import WitnessSigning.Text.Bech32

/-!
# A root and its powers

The checksum of an address is a remainder in a polynomial ring whose elements are five bits wide,
so what it detects shows in a field where the generator polynomial has roots. All that is used of
such a field is one element `t` with `t ^ 10 = t ^ 8 + t ^ 5 + t + 1` in characteristic two
(`WitnessSigning.Bech32.root`), which exists in an algebraic closure: the values of five bits and
the roots of the generator polynomial are among its powers.

Identities between those powers are computed. A number of ten bits stands for the sum of the
powers that its bits select (`WitnessSigning.Bech32.eval`), taking it through a shift register
multiplies by `t` (`WitnessSigning.Bech32.eval_shift`), and exclusive or adds. So a sum of powers
is a power if the registers say so (`WitnessSigning.Bech32.bitSum_eq_pow`).
-/

namespace WitnessSigning.Bech32

/-! ### The root -/

/-- A field of characteristic two in which every polynomial has a root. -/
def Extension : Type :=
  AlgebraicClosure (ZMod 2)

noncomputable instance : Field Extension :=
  inferInstanceAs (Field (AlgebraicClosure (ZMod 2)))

instance : CharP Extension 2 :=
  inferInstanceAs (CharP (AlgebraicClosure (ZMod 2)) 2)

instance : IsAlgClosed Extension :=
  inferInstanceAs (IsAlgClosed (AlgebraicClosure (ZMod 2)))

theorem exists_root : ∃ t : Extension, t ^ 10 = t ^ 8 + t ^ 5 + t + 1 := by
  open Polynomial in
  have hdegree : (X ^ 10 - (X ^ 8 + X ^ 5 + X + 1) : Extension[X]).degree ≠ 0 := by
    have h : (X ^ 10 - (X ^ 8 + X ^ 5 + X + 1) : Extension[X]).degree = 10 := by compute_degree!
    rw [h]
    decide
  obtain ⟨t, ht⟩ := IsAlgClosed.exists_root _ hdegree
  refine ⟨t, sub_eq_zero.1 ?_⟩
  simpa using ht

/-- **The root** whose powers all the others are. -/
noncomputable def root : Extension :=
  exists_root.choose

theorem root_pow_ten : root ^ 10 = root ^ 8 + root ^ 5 + root + 1 :=
  exists_root.choose_spec

/-! ### Weighted bits -/

section BitSum

variable {weight weight' : Nat → Extension} {width : Nat} {bit bit' : Nat → Bool}

/-- **The sum of the weights** of those bits that are set. -/
noncomputable def bitSum (weight : Nat → Extension) (width : Nat) (bit : Nat → Bool) : Extension :=
  ∑ i ∈ Finset.range width, if bit i then weight i else 0

theorem bitSum_congr (hweight : ∀ i < width, weight i = weight' i)
    (hbit : ∀ i < width, bit i = bit' i) :
    bitSum weight width bit = bitSum weight' width bit' :=
  Finset.sum_congr rfl fun i hi => by
    rw [hweight i (Finset.mem_range.1 hi), hbit i (Finset.mem_range.1 hi)]

/-- **Exclusive or adds**, as nothing is left of what is added twice. -/
theorem bitSum_xor : bitSum weight width (fun i => bit i ^^ bit' i) =
    bitSum weight width bit + bitSum weight width bit' := by
  rw [bitSum, bitSum, bitSum, ← Finset.sum_add_distrib]
  refine Finset.sum_congr rfl fun i _ => ?_
  cases bit i <;> cases bit' i <;> simp [CharTwo.add_self_eq_zero]

theorem bitSum_false : bitSum weight width (fun _ => false) = 0 := by
  simp [bitSum]

/-- The lower bits and the upper bits can be summed apart. -/
theorem bitSum_add (weight : Nat → Extension) (width width' : Nat) (bit : Nat → Bool) :
    bitSum weight (width + width') bit = bitSum weight width bit +
      bitSum (fun i => weight (width + i)) width' fun i => bit (width + i) :=
  Finset.sum_range_add _ _ _

theorem bitSum_mul_left (c : Extension) :
    bitSum (fun i => c * weight i) width bit = c * bitSum weight width bit := by
  rw [bitSum, bitSum, Finset.mul_sum]
  exact Finset.sum_congr rfl fun i _ => (mul_ite_zero _ _ _).symm

end BitSum

/-! ### The shift register -/

/-- **What a register of ten bits stands for**: the sum of the powers that it selects. -/
noncomputable def eval (n : Nat) : Extension :=
  bitSum (root ^ ·) 10 n.testBit

theorem eval_xor (m n : Nat) : eval (m ^^^ n) = eval m + eval n := by
  rw [eval, eval, eval, ← bitSum_xor]
  exact bitSum_congr (fun _ _ => rfl) fun i _ => Nat.testBit_xor ..

theorem eval_zero : eval 0 = 0 := by
  simp [eval, bitSum]

/-- Shifts a register, and subtracts the polynomial of the root if a bit leaves it: the
bits 10, 8, 5, 1 and 0 make 1315. -/
def shift (n : Nat) : Nat :=
  2 * n ^^^ 1315 * (n / 512 % 2)

/-- **A shift multiplies** by the root. -/
theorem eval_shift (n : Nat) : eval (shift n) = root * eval n := by
  have hmoved : eval (2 * n) = root * bitSum (root ^ ·) 9 n.testBit := by
    have hlow : bitSum (root ^ ·) 1 (2 * n).testBit = 0 := by simp [bitSum]
    have hsplit := bitSum_add (root ^ ·) 1 9 (2 * n).testBit
    rw [hlow, zero_add] at hsplit
    rw [eval, hsplit, ← bitSum_mul_left]
    refine bitSum_congr (fun i _ => ?_) fun i _ => ?_
    · rw [Nat.add_comm, pow_succ']
    · rw [Nat.add_comm, Nat.testBit_succ, Nat.mul_div_cancel_left _ Nat.two_pos]
  have hreduced : eval (1315 * (n / 512 % 2)) = if n.testBit 9 then root ^ 10 else 0 := by
    rw [Nat.testBit_eq_decide_div_mod_eq]
    rcases Nat.mod_two_eq_zero_or_one (n / 512) with h | h
    · simp [h, eval_zero]
    · have hbits : eval 1315 = root ^ 10 := by
        rw [root_pow_ten]
        simp [eval, bitSum, Finset.sum_range_succ, Nat.testBit]
        ring
      simp [h, hbits]
  calc eval (shift n)
      = root * bitSum (root ^ ·) 9 n.testBit + if n.testBit 9 then root ^ 10 else 0 := by
        rw [shift, eval_xor, hmoved, hreduced]
    _ = root * eval n := by
        rw [eval, bitSum, bitSum, Finset.sum_range_succ _ 9, mul_add, mul_ite_zero, ← pow_succ']

/-- **The register of a power**: one after `k` shifts, of which 1023 lead back to it
(`WitnessSigning.Bech32.root_pow_1023`). -/
def power (k : Nat) : Nat :=
  shift^[k % 1023] 1

theorem eval_iterate_shift (k : Nat) : eval (shift^[k] 1) = root ^ k := by
  induction k with
  | zero => simp [eval, bitSum, Finset.sum_range_succ, Nat.testBit]
  | succ k ih => rw [Function.iterate_succ_apply', eval_shift, ih, pow_succ']

theorem root_pow_1023 : root ^ 1023 = 1 := by
  have h : shift^[1023] 1 = shift^[0] 1 := by decide +kernel
  rw [← eval_iterate_shift, h, eval_iterate_shift, pow_zero]

theorem eval_power (k : Nat) : eval (power k) = root ^ k := by
  rw [power, eval_iterate_shift, ← pow_eq_pow_mod k root_pow_1023]

/-! ### Sums of powers -/

/-- **The register of a sum of powers.** -/
def powerSum (exponent : Nat → Nat) (bit : Nat → Bool) : Nat → Nat
  | 0 => 0
  | width + 1 => powerSum exponent bit width ^^^ if bit width then power (exponent width) else 0

theorem eval_powerSum (exponent : Nat → Nat) (bit : Nat → Bool) (width : Nat) :
    eval (powerSum exponent bit width) = bitSum (root ^ exponent ·) width bit := by
  induction width with
  | zero => exact eval_zero
  | succ width ih =>
    rw [powerSum, eval_xor, ih, apply_ite eval, eval_power, eval_zero, bitSum, bitSum,
      Finset.sum_range_succ]

/-- **A sum of powers is a power** if their registers are equal. -/
theorem bitSum_eq_pow {exponent : Nat → Nat} {bit : Nat → Bool} {width k : Nat}
    (h : powerSum exponent bit width = power k) :
    bitSum (root ^ exponent ·) width bit = root ^ k := by
  rw [← eval_powerSum, h, eval_power]

theorem one_add_root_pow {d k : Nat} (h : powerSum (d * ·) (fun _ => true) 2 = power k) :
    1 + root ^ d = root ^ k := by
  rw [← bitSum_eq_pow h, bitSum, Finset.sum_range_succ, Finset.sum_range_one]
  simp

theorem root_ne_zero : root ≠ 0 := by
  intro h
  have hone := root_pow_1023
  rw [h, zero_pow (by decide)] at hone
  exact zero_ne_one hone

/-- The root has all the powers that it can have. -/
theorem orderOf_root : orderOf root = 1023 := by
  have hne : ∀ {d k : Nat}, powerSum (d * ·) (fun _ => true) 2 = power k → root ^ d ≠ 1 := by
    intro d k h hone
    have hzero := one_add_root_pow h
    rw [hone, CharTwo.add_self_eq_zero] at hzero
    exact pow_ne_zero k root_ne_zero hzero.symm
  refine orderOf_eq_of_pow_and_pow_div_prime (by decide) root_pow_1023 fun p hp hdvd => ?_
  have hprimes : p ∣ 3 * 11 * 31 := hdvd
  rw [hp.dvd_mul, hp.dvd_mul, Nat.prime_dvd_prime_iff_eq hp (by norm_num),
    Nat.prime_dvd_prime_iff_eq hp (by norm_num),
    Nat.prime_dvd_prime_iff_eq hp (by norm_num)] at hprimes
  obtain (rfl | rfl) | rfl := hprimes
  · exact hne (d := 341) (k := 682) (by decide +kernel)
  · exact hne (d := 93) (k := 426) (by decide +kernel)
  · exact hne (d := 33) (k := 429) (by decide +kernel)

theorem modEq_of_root_pow_eq {a b : Nat} (h : root ^ a = root ^ b) : a ≡ b [MOD 1023] := by
  have hfinite : IsOfFinOrder root := isOfFinOrder_iff_pow_eq_one.2 ⟨1023, by decide, root_pow_1023⟩
  rwa [hfinite.pow_eq_pow_iff_modEq, orderOf_root] at h

end WitnessSigning.Bech32
