import Mathlib.Data.Finset.Sort
import Mathlib.Data.Fintype.BigOperators
import WitnessSigning.Proofs.Text.Syndrome

/-!
# Four values never cancel

Up to four values among zeros always leave a remainder other than zero, as long as there are no
more than 59 values in all (`WitnessSigning.Bech32.eq_zero_of_foldl_eq_zero`). So many are in the
address of 32 octets. As remainders are linear, values that leave the same remainder are then
equal or differ at more than four places (`WitnessSigning.Bech32.eq_of_remainder_eq`).

That three syndromes vanish excludes up to three values only. When two of four values are
eliminated from the three equations, one equation is left between the other two
(`WitnessSigning.Bech32.eliminate`), and all its factors are powers of the root: the places, the
sums of two places (`WitnessSigning.Bech32.root_pow_add_root_pow`), and the values themselves,
whose exponents vanish modulo 33. So the exponents of the rest agree modulo 33, and that for each
of three pairs of places (`WitnessSigning.Bech32.Cancels`). No four places that are close enough
meet all three conditions (`WitnessSigning.Bech32.not_cancels`).
-/

namespace WitnessSigning.Bech32

/-! ### Sums of two powers -/

/-- The numbers `z` with `1 + root ^ d = root ^ z`, in the order of `d`, starting with nothing for
`d = 0`. -/
def zechLogarithms : List Nat :=
  [0, 220, 440, 120, 880, 609, 240, 797, 737, 530, 195, 133, 480, 620, 571, 384, 451, 679, 37, 1005,
    390, 577, 266, 179, 960, 336, 217, 658, 119, 441, 768, 560, 902, 429, 335, 961, 74, 18, 987,
    250, 780, 88, 131, 173, 532, 691, 358, 982, 897, 685, 672, 160, 434, 663, 293, 256, 238, 202,
    882]

/-- The logarithms as the digits of one number, in which they are found at once. -/
def zechDigits : Nat :=
  zechLogarithms.foldr (fun z rest => z + 1024 * rest) 0

/-- **The exponent of a sum** of one and a power of the root. -/
def zech (d : Nat) : Nat :=
  zechDigits >>> (10 * d) % 1024

theorem powerSum_zech : ∀ d < 59, d ≠ 0 → powerSum (d * ·) (fun _ => true) 2 = power (zech d) := by
  decide +kernel

/-- **The sum of two powers** of the root is a power. -/
theorem root_pow_add_root_pow {d : Nat} (hd : d < 59) (hne : d ≠ 0) (a : Nat) :
    root ^ a + root ^ (a + d) = root ^ (a + zech d) := by
  rw [pow_add, pow_add, ← one_add_root_pow (powerSum_zech d hd hne), mul_add, mul_one]

/-! ### Exponents that would have to agree -/

/-- **What it takes to cancel**, of the distances of three places from a first one: that for each
of the three the exponents in its equation with the first place agree. -/
def Cancels (i j k : Nat) : Prop :=
  zech j + zech k ≡ 26 * i + zech (j - i) + zech (k - i) [MOD 33] ∧
    zech i + zech k ≡ i + 25 * j + zech (j - i) + zech (k - j) [MOD 33] ∧
    zech i + zech j ≡ i + j + 24 * k + zech (k - i) + zech (k - j) [MOD 33]

instance (i j k : Nat) : Decidable (Cancels i j k) :=
  inferInstanceAs (Decidable (_ ∧ _ ∧ _))

/-- **No three distances** meet all three conditions, as long as they are short enough. -/
theorem not_cancels : ∀ k < 59, ∀ j < k, ∀ i < j, i ≠ 0 → ¬Cancels i j k := by
  decide +kernel

/-! ### Four terms -/

/-- **Two terms out of four** are left when the other two are eliminated from three equations. -/
theorem eliminate {c₀ c₁ c₂ c₃ x₀ x₁ x₂ x₃ : Extension}
    (h : ∀ m < 3, c₀ * x₀ ^ m + c₁ * x₁ ^ m + c₂ * x₂ ^ m + c₃ * x₃ ^ m = 0) :
    c₀ * ((x₀ + x₂) * (x₀ + x₃)) = c₁ * ((x₁ + x₂) * (x₁ + x₃)) := by
  have htwo : (2 : Extension) = 0 := CharTwo.two_eq_zero
  rw [← CharTwo.add_eq_zero]
  -- the polynomial with the roots `x₂` and `x₃`, taken at all four
  linear_combination h 2 (by decide) + (x₂ + x₃) * h 1 (by decide) + x₂ * x₃ * h 0 (by decide) -
    (c₂ * x₂ * (x₂ + x₃) + c₃ * x₃ * (x₂ + x₃)) * htwo

/-- Modulo 33, the exponents of equal powers of the root agree, and values add nothing to them. -/
theorem modEq_of_ofValue_mul_eq {v w : UInt8} (hv : v.toNat < 32) (hw : w.toNat < 32) {a b : Nat}
    (h : ofValue v * root ^ a = ofValue w * root ^ b) :
    (v = 0 ↔ w = 0) ∧ (v ≠ 0 → a ≡ b [MOD 33]) := by
  have hzero : v = 0 ↔ w = 0 := by
    have hpow : ∀ n, root ^ n ≠ 0 := fun n => pow_ne_zero n root_ne_zero
    rw [← ofValue_eq_zero_iff hv, ← ofValue_eq_zero_iff hw, ← mul_eq_zero_iff_right (hpow a), h,
      mul_eq_zero_iff_right (hpow b)]
  refine ⟨hzero, fun hne => ?_⟩
  obtain ⟨l, hl⟩ := exists_ofValue_eq_pow hv hne
  obtain ⟨l', hl'⟩ := exists_ofValue_eq_pow hw (hzero.not.1 hne)
  rw [hl, hl', ← pow_add, ← pow_add] at h
  have hmod : 924 * l + a ≡ 924 * l' + b [MOD 33] := (modEq_of_root_pow_eq h).of_dvd (by decide)
  simp only [Nat.ModEq] at hmod ⊢
  omega

/-- **The equation between two** of four values that cancel, given what the powers for their
places and those for the other two places add up to. -/
theorem modEq_of_sum_eq_zero {v₀ v₁ v₂ v₃ : UInt8} (hv₀ : v₀.toNat < 32) (hv₁ : v₁.toNat < 32)
    {a b c d s t s' t' : Nat}
    (h : ∀ m < 3, ofValue v₀ * root ^ ((24 + m) * a) + ofValue v₁ * root ^ ((24 + m) * b) +
      ofValue v₂ * root ^ ((24 + m) * c) + ofValue v₃ * root ^ ((24 + m) * d) = 0)
    (hs : root ^ a + root ^ c = root ^ s) (ht : root ^ a + root ^ d = root ^ t)
    (hs' : root ^ b + root ^ c = root ^ s') (ht' : root ^ b + root ^ d = root ^ t') :
    (v₀ = 0 ↔ v₁ = 0) ∧ (v₀ ≠ 0 → 24 * a + (s + t) ≡ 24 * b + (s' + t') [MOD 33]) := by
  have hterms : ∀ m < 3, ofValue v₀ * root ^ (24 * a) * (root ^ a) ^ m +
      ofValue v₁ * root ^ (24 * b) * (root ^ b) ^ m +
        ofValue v₂ * root ^ (24 * c) * (root ^ c) ^ m +
          ofValue v₃ * root ^ (24 * d) * (root ^ d) ^ m = 0 := by
    intro m hm
    rw [← h m hm]
    ring
  have hleft := eliminate hterms
  rw [hs, ht, hs', ht', ← pow_add, ← pow_add, mul_assoc, mul_assoc, ← pow_add, ← pow_add] at hleft
  exact modEq_of_ofValue_mul_eq hv₀ hv₁ hleft

/-- **Four values at four places** that are close enough never cancel. -/
theorem eq_zero_of_four {v₀ v₁ v₂ v₃ : UInt8} (hv₀ : v₀.toNat < 32) (hv₁ : v₁.toNat < 32)
    (hv₂ : v₂.toNat < 32) (hv₃ : v₃.toNat < 32) {p i j k : Nat} (hi : i ≠ 0) (hij : i < j)
    (hjk : j < k) (hk : k < 59)
    (h : ∀ m < 3, ofValue v₀ * root ^ ((24 + m) * p) + ofValue v₁ * root ^ ((24 + m) * (p + i)) +
      ofValue v₂ * root ^ ((24 + m) * (p + j)) + ofValue v₃ * root ^ ((24 + m) * (p + k)) = 0) :
    v₀ = 0 ∧ v₁ = 0 ∧ v₂ = 0 ∧ v₃ = 0 := by
  have hfirst : ∀ d < 59, d ≠ 0 → root ^ p + root ^ (p + d) = root ^ (p + zech d) :=
    fun d hd hne => root_pow_add_root_pow hd hne p
  have hlater : ∀ {d e : Nat}, d < e → e < 59 →
      root ^ (p + d) + root ^ (p + e) = root ^ (p + d + zech (e - d)) := by
    intro d e hde he
    have hsum := root_pow_add_root_pow (d := e - d) (by omega) (by omega) (p + d)
    rwa [Nat.add_assoc p d, Nat.add_sub_cancel' hde.le] at hsum
  -- the first place against each of the others, the two that remain being eliminated
  obtain ⟨hzero₁, hmod₁⟩ := modEq_of_sum_eq_zero hv₀ hv₁ h (hfirst j (by omega) (by omega))
    (hfirst k hk (by omega)) (hlater hij (by omega)) (hlater (hij.trans hjk) hk)
  have h₂ : ∀ m < 3, ofValue v₀ * root ^ ((24 + m) * p) + ofValue v₂ * root ^ ((24 + m) * (p + j)) +
      ofValue v₁ * root ^ ((24 + m) * (p + i)) + ofValue v₃ * root ^ ((24 + m) * (p + k)) = 0 :=
    fun m hm => by rw [← h m hm]; ring
  obtain ⟨hzero₂, hmod₂⟩ := modEq_of_sum_eq_zero hv₀ hv₂ h₂ (hfirst i (by omega) hi)
    (hfirst k hk (by omega)) ((add_comm _ _).trans (hlater hij (by omega))) (hlater hjk hk)
  have h₃ : ∀ m < 3, ofValue v₀ * root ^ ((24 + m) * p) + ofValue v₃ * root ^ ((24 + m) * (p + k)) +
      ofValue v₁ * root ^ ((24 + m) * (p + i)) + ofValue v₂ * root ^ ((24 + m) * (p + j)) = 0 :=
    fun m hm => by rw [← h m hm]; ring
  obtain ⟨hzero₃, hmod₃⟩ := modEq_of_sum_eq_zero hv₀ hv₃ h₃ (hfirst i (by omega) hi)
    (hfirst j (by omega) (by omega)) ((add_comm _ _).trans (hlater (hij.trans hjk) hk))
    ((add_comm _ _).trans (hlater hjk hk))
  by_cases hne : v₀ = 0
  · exact ⟨hne, hzero₁.1 hne, hzero₂.1 hne, hzero₃.1 hne⟩
  · -- if no value is zero, the exponents of all terms agree, which the distances exclude
    have hcancels : Cancels i j k := by
      refine ⟨?_, ?_, ?_⟩
      · refine Nat.ModEq.add_left_cancel' (26 * p) ?_
        convert hmod₁ hne using 1 <;> ring
      · refine Nat.ModEq.add_left_cancel' (26 * p) ?_
        convert hmod₂ hne using 1 <;> ring
      · refine Nat.ModEq.add_left_cancel' (26 * p) ?_
        convert hmod₃ hne using 1 <;> ring
    exact absurd hcancels (not_cancels k hk j hjk i hij hi)

/-! ### Up to four values -/

open Finset in
/-- **Up to four values** never cancel at 59 places. -/
theorem eq_zero_of_card_le_four {e : Nat → UInt8} (he : ∀ p, (e p).toNat < 32)
    (hfew : #{p ∈ range 59 | e p ≠ 0} ≤ 4)
    (h : ∀ m < 3, ∑ p ∈ range 59, ofValue (e p) * root ^ ((24 + m) * p) = 0) :
    ∀ p < 59, e p = 0 := by
  -- exactly four places, in their order
  obtain ⟨places, hsub, hplaces, hcard⟩ :=
    exists_subsuperset_card_eq (filter_subset _ _) hfew (by rw [card_range]; decide)
  obtain ⟨q, hq⟩ : ∃ q : Fin 4 ↪o Nat, univ.map q.toEmbedding = places :=
    ⟨places.orderEmbOfFin hcard, map_orderEmbOfFin_univ places hcard⟩
  have hmem : ∀ a, q a ∈ places := fun a => hq ▸ mem_map_of_mem _ (mem_univ a)
  have hsum : ∀ m < 3, ∑ a, ofValue (e (q a)) * root ^ ((24 + m) * q a) = 0 := by
    intro m hm
    have hrest : ∀ p ∈ range 59, p ∉ places → ofValue (e p) * root ^ ((24 + m) * p) = 0 := by
      intro p hp hnot
      have hzero : e p = 0 := by
        by_contra hne
        exact hnot (hsub (mem_filter.2 ⟨hp, hne⟩))
      rw [hzero, ofValue_zero, zero_mul]
    rw [← h m hm, ← sum_subset hplaces hrest, ← hq, sum_map]
    rfl
  have hzero : ∀ a, e (q a) = 0 := by
    have hlt : q 0 < q 1 ∧ q 1 < q 2 ∧ q 2 < q 3 :=
      ⟨q.strictMono (by decide), q.strictMono (by decide), q.strictMono (by decide)⟩
    have hend : q 3 < 59 := mem_range.1 (hplaces (hmem 3))
    obtain ⟨i, hi⟩ : ∃ i, q 1 = q 0 + i := Nat.exists_eq_add_of_le hlt.1.le
    obtain ⟨j, hj⟩ : ∃ j, q 2 = q 0 + j := Nat.exists_eq_add_of_le (hlt.1.trans hlt.2.1).le
    obtain ⟨k, hk⟩ : ∃ k, q 3 = q 0 + k := Nat.exists_eq_add_of_le (by omega)
    obtain ⟨h₀, h₁, h₂, h₃⟩ := eq_zero_of_four (he (q 0)) (he (q 1)) (he (q 2)) (he (q 3))
      (p := q 0) (i := i) (j := j) (k := k) (by omega) (by omega) (by omega) (by omega)
      fun m hm => by
        rw [← hi, ← hj, ← hk, ← hsum m hm, Fin.sum_univ_four]
    rw [Fin.forall_fin_succ, Fin.forall_fin_succ, Fin.forall_fin_succ, Fin.forall_fin_one]
    exact ⟨h₀, h₁, h₂, h₃⟩
  intro p hp
  by_contra hne
  have hp' : p ∈ univ.map q.toEmbedding := hq ▸ hsub (mem_filter.2 ⟨mem_range.2 hp, hne⟩)
  obtain ⟨a, -, rfl⟩ := mem_map.1 hp'
  exact hne (hzero a)

open Finset in
/-- **Up to four values** among zeros always leave a remainder, if the values are 59 at most. -/
theorem eq_zero_of_foldl_eq_zero {values : Bytes} (hvalues : ∀ v ∈ values, v.toNat < 32)
    (hlength : values.length ≤ 59) (hfew : #{p ∈ range 59 | values.reverse.getD p 0 ≠ 0} ≤ 4)
    (h : values.foldl remainderStep 0#30 = 0#30) : ∀ v ∈ values, v = 0 := by
  have he : ∀ p, (values.reverse.getD p 0).toNat < 32 := by
    intro p
    rcases Nat.lt_or_ge p values.reverse.length with hp | hp
    · rw [List.getD_eq_getElem _ _ hp]
      exact hvalues _ (List.mem_reverse.1 (List.getElem_mem hp))
    · rw [List.getD_eq_default _ _ hp]
      decide
  have hzero := eq_zero_of_card_le_four he hfew fun m hm => by
    rw [← syndrome_foldl hm hvalues hlength, h, syndrome_zero]
  intro v hv
  obtain ⟨p, hp, rfl⟩ := List.getElem_of_mem (List.mem_reverse.2 hv)
  rw [← List.getD_eq_getElem _ 0 hp]
  exact hzero p (hp.trans_le (List.length_reverse.trans_le hlength))

/-! ### Differences -/

/-- The difference of two sequences of values, which has a zero where they agree. -/
def difference (values values' : Bytes) : Bytes :=
  List.zipWith (· ^^^ ·) values values'

section Difference

variable {values values' : Bytes}

theorem length_difference (h : values.length = values'.length) :
    (difference values values').length = values.length := by
  rw [difference, List.length_zipWith, ← h, Nat.min_self]

theorem lt_of_mem_difference (hvalues : ∀ v ∈ values, v.toNat < 32)
    (hvalues' : ∀ v ∈ values', v.toNat < 32) {v : UInt8} (h : v ∈ difference values values') :
    v.toNat < 32 := by
  obtain ⟨i, hi, rfl⟩ := List.getElem_of_mem h
  simp only [difference, List.getElem_zipWith, UInt8.toNat_xor]
  exact Nat.xor_lt_two_pow (n := 5) (hvalues _ (List.getElem_mem _))
    (hvalues' _ (List.getElem_mem _))

theorem eq_of_difference_eq_zero (hsame : values.length = values'.length)
    (h : ∀ v ∈ difference values values', v = 0) : values = values' := by
  refine List.ext_getElem hsame fun i hi hi' => UInt8.xor_eq_zero_iff.1 (h _ ?_)
  rw [difference, ← List.getElem_zipWith (f := (· ^^^ ·)) (h := by rw [List.length_zipWith]; omega)]
  exact List.getElem_mem _

/-- A value of the difference, counted from its end, shows where the sequences differ. -/
theorem ne_of_getD_reverse_difference (hsame : values.length = values'.length) {p : Nat}
    (h : (difference values values').reverse.getD p 0 ≠ 0) : p < values.length ∧
      values[values.length - 1 - p]? ≠ values'[values.length - 1 - p]? := by
  have hp : p < values.length := by
    by_contra hp
    exact h (List.getD_eq_default _ _ (by rw [List.length_reverse, length_difference hsame]; omega))
  have hlt : values.length - 1 - p < values.length := by omega
  refine ⟨hp, fun hget => h ?_⟩
  rw [List.getD_eq_getElem?_getD, List.getElem?_reverse (by rwa [length_difference hsame]),
    length_difference hsame, difference, List.getElem?_zipWith, ← hget,
    List.getElem?_eq_getElem hlt]
  exact UInt8.xor_self

open Finset in
theorem card_difference_le (hsame : values.length = values'.length) (n : Nat) :
    #{p ∈ range n | (difference values values').reverse.getD p 0 ≠ 0} ≤
      #{p ∈ range values.length | values[p]? ≠ values'[p]?} := by
  refine card_le_card_of_injOn (fun p => values.length - 1 - p) ?_ ?_
  · intro p hp
    obtain ⟨hp, hne⟩ := ne_of_getD_reverse_difference hsame (mem_filter.1 hp).2
    have hlt : values.length - 1 - p < values.length := by omega
    exact mem_filter.2 ⟨mem_range.2 hlt, hne⟩
  · intro p hp p' hp' he
    have hp := (ne_of_getD_reverse_difference hsame (mem_filter.1 hp).2).1
    have hp' := (ne_of_getD_reverse_difference hsame (mem_filter.1 hp').2).1
    dsimp only at he
    omega

open Finset in
/-- **Values that leave the same remainder** behind the same front are equal or
differ at more than four places. -/
theorem eq_of_remainder_eq {front : Bytes} (hvalues : ∀ v ∈ values, v.toNat < 32)
    (hvalues' : ∀ v ∈ values', v.toNat < 32) (hsame : values.length = values'.length)
    (hlength : values.length ≤ 59)
    (hfew : #{p ∈ range values.length | values[p]? ≠ values'[p]?} ≤ 4)
    (h : remainder (front ++ values) = remainder (front ++ values')) : values = values' := by
  have hremainder : (difference values values').foldl remainderStep 0#30 = 0#30 := by
    have hlinear := foldl_remainderStep_zipWith hsame (front.foldl remainderStep 1)
      (front.foldl remainderStep 1)
    rw [remainder, remainder, List.foldl_append, List.foldl_append] at h
    rwa [BitVec.xor_self, h, BitVec.xor_self] at hlinear
  exact eq_of_difference_eq_zero hsame <|
    eq_zero_of_foldl_eq_zero (fun _ => lt_of_mem_difference hvalues hvalues')
      ((length_difference hsame).trans_le hlength) ((card_difference_le hsame 59).trans hfew)
      hremainder

end Difference

end WitnessSigning.Bech32
