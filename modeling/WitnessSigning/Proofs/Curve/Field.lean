import Mathlib.FieldTheory.Finite.Basic
import Mathlib.Tactic.NormNum.Prime
import WitnessSigning.Curve.Field

/-!
# The coordinates and the scalars form fields

Residues are related to Mathlib's ring of integers modulo `m` by `WitnessSigning.residue`, under
which sums, products and powers correspond. Both moduli are prime, which is shown by Pocklington's
test: enough prime factors of `m - 1` are known, and the powers of two behave as in a field
(`WitnessSigning.prime_of_certifies`). The powers in question are computed by `WitnessSigning.power`
itself. Primality makes `WitnessSigning.inverse` the inverse.
-/

namespace WitnessSigning

/-! ### Residues -/

section Residue

variable {m : Nat}

/-- **A residue in the ring of integers modulo `m`.** -/
def residue (a : Fin m) : ZMod m := (a.val : ZMod m)

theorem residue_injective : Function.Injective (residue : Fin m → ZMod m) := by
  intro a b h
  have hmod : a.val % m = b.val % m := (ZMod.natCast_eq_natCast_iff' _ _ _).1 h
  rw [Nat.mod_eq_of_lt a.isLt, Nat.mod_eq_of_lt b.isLt] at hmod
  exact Fin.ext hmod

theorem residue_inj {a b : Fin m} : residue a = residue b ↔ a = b :=
  residue_injective.eq_iff

@[simp]
theorem residue_add (a b : Fin m) : residue (a + b) = residue a + residue b := by
  rw [residue, Fin.val_add, ZMod.natCast_mod, Nat.cast_add]
  rfl

@[simp]
theorem residue_mul (a b : Fin m) : residue (a * b) = residue a * residue b := by
  rw [residue, Fin.val_mul, ZMod.natCast_mod, Nat.cast_mul]
  rfl

@[simp]
theorem residue_sub (a b : Fin m) : residue (a - b) = residue a - residue b := by
  rw [residue, Fin.sub_def, ZMod.natCast_mod, Nat.cast_add, Nat.cast_sub b.isLt.le,
    ZMod.natCast_self, zero_sub, neg_add_eq_sub]
  rfl

@[simp]
theorem residue_neg (a : Fin m) : residue (-a) = -residue a := by
  rw [residue, Fin.neg_def, ZMod.natCast_mod, Nat.cast_sub a.isLt.le, ZMod.natCast_self, zero_sub]
  rfl

variable [NeZero m]

theorem residue_ofNat_val (n : Nat) : residue (Fin.ofNat m n) = (n : ZMod m) := by
  rw [residue, Fin.val_ofNat, ZMod.natCast_mod]

@[simp]
theorem residue_ofNat (n : Nat) [n.AtLeastTwo] :
    residue (ofNat(n) : Fin m) = (ofNat(n) : ZMod m) :=
  residue_ofNat_val n

@[simp]
theorem residue_zero : residue (0 : Fin m) = 0 :=
  (residue_ofNat_val 0).trans Nat.cast_zero

@[simp]
theorem residue_one : residue (1 : Fin m) = 1 :=
  (residue_ofNat_val 1).trans Nat.cast_one

theorem residue_eq_zero_iff {a : Fin m} : residue a = 0 ↔ a = 0 := by
  rw [← residue_zero, residue_inj]

end Residue

/-! ### Powers -/

theorem residue_powerBits {m : Nat} [NeZero m] (x : Fin m) (width e : Nat) :
    residue (powerBits x width e) = residue x ^ (e % 2 ^ width) := by
  induction width generalizing e with
  | zero => rw [powerBits, residue_one, pow_zero, Nat.mod_one, pow_zero]
  | succ width ih =>
    have he : e % 2 ^ (width + 1) = e / 2 % 2 ^ width + e / 2 % 2 ^ width + e % 2 := by
      rw [pow_succ', Nat.mod_mul]
      omega
    rw [powerBits, he, pow_add, pow_add]
    rcases Nat.mod_two_eq_zero_or_one e with h | h
    · simp [h, ih]
    · simp [h, ih]

/-- **Powers correspond** as long as the exponent has at most 256 bits. -/
theorem residue_power {m : Nat} [NeZero m] (x : Fin m) {e : Nat} (he : e < 2 ^ 256) :
    residue (power x e) = residue x ^ e := by
  rw [power, residue_powerBits, Nat.mod_eq_of_lt he]

/-! ### Primality -/

/-- **A certificate by prime factors of `m - 1`**: they are different, their product is above the
root of `m`, two to the power of `m - 1` is one, and for none of them does the power by the cofactor
come to one modulo any divisor of `m`. -/
def certifies (m : Nat) [NeZero m] (primes : List Nat) : Bool :=
  decide (1 < m ∧ m ≤ 2 ^ 256 ∧ primes.Nodup ∧ primes.prod ∣ m - 1 ∧ m < primes.prod ^ 2) &&
    power (Fin.ofNat m 2) (m - 1) == 1 &&
      primes.all fun q => Nat.gcd (power (Fin.ofNat m 2) ((m - 1) / q) - 1).val m == 1

theorem prod_dvd_of_primes {primes : List Nat} {n : Nat} (hp : ∀ q ∈ primes, q.Prime)
    (hnd : primes.Nodup) (h : ∀ q ∈ primes, q ∣ n) : primes.prod ∣ n := by
  induction primes with
  | nil => exact one_dvd n
  | cons q primes ih =>
    obtain ⟨hq, hnd⟩ := List.nodup_cons.1 hnd
    rw [List.prod_cons]
    refine Nat.Coprime.mul_dvd_of_dvd_of_dvd ?_ (h q List.mem_cons_self) ?_
    · refine Nat.coprime_list_prod_right_iff.2 fun r hr => ?_
      refine (Nat.coprime_primes (hp q List.mem_cons_self) (hp r (List.mem_cons_of_mem _ hr))).2 ?_
      rintro rfl
      exact hq hr
    · exact ih (fun r hr => hp r (List.mem_cons_of_mem _ hr)) hnd
        fun r hr => h r (List.mem_cons_of_mem _ hr)

/-- An element whose power by `n` is one, but not that by a prime's cofactor in `n`, has an order
that the prime divides. -/
theorem prime_dvd_orderOf {M : Type} [Monoid M] {x : M} {n q : Nat} (hq : q.Prime) (hqn : q ∣ n)
    (h1 : x ^ n = 1) (hx : x ^ (n / q) ≠ 1) : q ∣ orderOf x := by
  by_contra hno
  -- the order would be coprime to the prime and so divide the cofactor
  have hdvd : orderOf x ∣ n / q * q := by
    rw [Nat.div_mul_cancel hqn]
    exact orderOf_dvd_of_pow_eq_one h1
  have hcop : Nat.Coprime (orderOf x) q := ((Nat.Prime.coprime_iff_not_dvd hq).2 hno).symm
  exact hx (orderOf_dvd_iff_pow_eq_one.1 (hcop.dvd_of_dvd_mul_right hdvd))

/-- **Pocklington's test**: if the factors of a certificate are prime, so is the number that it is
for, as every prime divisor of it is above its root. -/
theorem prime_of_certifies {m : Nat} [NeZero m] {primes : List Nat} (hp : ∀ q ∈ primes, q.Prime)
    (h : certifies m primes = true) : m.Prime := by
  simp only [certifies, Bool.and_eq_true, decide_eq_true_eq, beq_iff_eq, List.all_eq_true] at h
  obtain ⟨⟨⟨hm, hw, hnd, hdvd, hlarge⟩, h1⟩, hq⟩ := h
  have hd := Nat.minFac_prime hm.ne'
  have := Fact.mk hd
  -- all powers are looked at modulo the smallest prime divisor
  let f := ZMod.castHom (Nat.minFac_dvd m) (ZMod m.minFac)
  have hpower : ∀ e < m, f (residue (power (Fin.ofNat m 2) e)) = 2 ^ e := by
    intro e he
    rw [residue_power _ (he.trans_le hw), map_pow, residue_ofNat_val, map_natCast]
    rfl
  have h1 : (2 : ZMod m.minFac) ^ (m - 1) = 1 := by
    rw [← hpower (m - 1) (by omega), h1, residue_one, map_one]
  have hfactor : ∀ q ∈ primes, q ∣ m.minFac - 1 := by
    intro q hmem
    have hne : (2 : ZMod m.minFac) ^ ((m - 1) / q) ≠ 1 := by
      intro he
      have hlt : (m - 1) / q < m := (Nat.div_le_self _ _).trans_lt (by omega)
      rw [← hpower _ hlt, ← sub_eq_zero, ← map_one f, ← residue_one, ← map_sub, ← residue_sub,
        residue, map_natCast, ZMod.natCast_eq_zero_iff] at he
      have hcop := Nat.Coprime.coprime_dvd_right (Nat.minFac_dvd m) (hq q hmem)
      exact hd.one_lt.ne' (Nat.Coprime.eq_one_of_dvd hcop.symm he)
    have horder := prime_dvd_orderOf (hp q hmem) ((List.dvd_prod hmem).trans hdvd) h1 hne
    refine horder.trans (ZMod.orderOf_dvd_card_sub_one ?_)
    intro h0
    rw [h0, zero_pow (by omega)] at h1
    exact zero_ne_one h1
  -- together the factors are less than the smallest prime divisor, which is then above the root
  have hprod := Nat.le_of_dvd (Nat.sub_pos_of_lt hd.one_lt) (prod_dvd_of_primes hp hnd hfactor)
  by_contra hcomp
  have hsq := Nat.minFac_sq_le_self (by omega) hcomp
  have hlt : primes.prod ^ 2 < m.minFac ^ 2 :=
    Nat.pow_lt_pow_left (hprod.trans_lt (Nat.sub_lt hd.pos Nat.one_pos)) two_ne_zero
  exact absurd (hlarge.trans hlt) hsq.not_gt

/-- **The modulus of the coordinates is prime.** -/
theorem prime_fieldPrime : Nat.Prime fieldPrime := by
  have h₁ : Nat.Prime 255515944373312847190720520512484175977 := by
    have h : certifies 255515944373312847190720520512484175977 [107590001, 7240687, 96557] := by
      decide +kernel
    refine prime_of_certifies ?_ h
    norm_num
  have h₂ : Nat.Prime 205115282021455665897114700593932402728804164701536103180137503955397371 := by
    have h : certifies 205115282021455665897114700593932402728804164701536103180137503955397371
        [255515944373312847190720520512484175977] := by
      decide +kernel
    exact prime_of_certifies (by simpa using h₁) h
  have h : certifies fieldPrime
      [205115282021455665897114700593932402728804164701536103180137503955397371] := by
    decide +kernel
  exact prime_of_certifies (by simpa using h₂) h

/-- **The group order is prime.** -/
theorem prime_groupOrder : Nat.Prime groupOrder := by
  have h₁ : Nat.Prime 297159362677 := by
    have h : certifies 297159362677 [1627771] := by decide +kernel
    refine prime_of_certifies ?_ h
    norm_num
  have h₂ : Nat.Prime 29047611873442575647497758179 := by
    have h : certifies 29047611873442575647497758179 [297159362677, 305873] := by decide +kernel
    exact prime_of_certifies (by simpa using ⟨h₁, by norm_num⟩) h
  have h₃ : Nat.Prime 341948486974166000522343609283189 := by
    have h : certifies 341948486974166000522343609283189 [29047611873442575647497758179] := by
      decide +kernel
    exact prime_of_certifies (by simpa using h₂) h
  have h₄ : Nat.Prime 174723607534414371449 := by
    have h : certifies 174723607534414371449 [44706919, 120233] := by decide +kernel
    refine prime_of_certifies ?_ h
    norm_num
  have h : certifies groupOrder [341948486974166000522343609283189, 174723607534414371449] := by
    decide +kernel
  exact prime_of_certifies (by simpa using ⟨h₃, h₄⟩) h

instance : Fact fieldPrime.Prime := ⟨prime_fieldPrime⟩

instance : Fact groupOrder.Prime := ⟨prime_groupOrder⟩

/-! ### Inverses -/

/-- **The computed inverse** is the inverse, and zero for zero. -/
theorem residue_inverse {m : Nat} [Fact m.Prime] (hm : 2 < m) (hw : m ≤ 2 ^ 256) (x : Fin m) :
    residue (inverse x) = (residue x)⁻¹ := by
  rw [inverse, residue_power x (by omega)]
  by_cases hx : residue x = 0
  · rw [hx, zero_pow (by omega), inv_zero]
  · refine eq_inv_of_mul_eq_one_left ?_
    -- one more power gives one, by Fermat
    have he : m - 2 + 1 = m - 1 := by omega
    rw [← pow_succ, he, ZMod.pow_card_sub_one_eq_one hx]

theorem residue_inverse_coordinate (x : Coordinate) : residue (inverse x) = (residue x)⁻¹ :=
  residue_inverse (by decide) (by decide) x

theorem residue_inverse_scalar (x : Scalar) : residue (inverse x) = (residue x)⁻¹ :=
  residue_inverse (by decide) (by decide) x

end WitnessSigning
