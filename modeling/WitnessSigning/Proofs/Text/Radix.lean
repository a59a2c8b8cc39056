import Mathlib.Data.Nat.Digits.Lemmas
import WitnessSigning.Text.Base58

/-!
# Digits of a number that grows

One step of counting multiplies a number by a factor and adds a digit to it, on the number's
digits in another base. It keeps the digits those of a number, without a zero at the most
significant end (`WitnessSigning.Radix.mulAdd_digits`), so reading a number digit by digit in one
base leaves its digits in the other (`WitnessSigning.Radix.foldl_mulAdd`).

A list of digits in some base is the digits of a number with as many zeros in front as
it has (`WitnessSigning.Radix.exists_eq_numeral`). Number and zeros are determined by
the list, so a list in one base and a list in another are matched by having the same of
both (`WitnessSigning.Radix.numeral`).
-/

namespace WitnessSigning.Radix

/-! ### Multiplying and adding -/

section Step

variable {base : Nat}

/-- The digits of a carry are all found in as many rounds as it counts. -/
theorem carryDigits_eq (hb : 1 < base) {fuel carry : Nat} (h : carry ≤ fuel) :
    carryDigits base fuel carry = Nat.digits base carry := by
  induction fuel generalizing carry with
  | zero =>
    obtain rfl := Nat.le_zero.1 h
    rw [carryDigits, Nat.digits_zero]
  | succ fuel ih =>
    rw [carryDigits]
    split
    · next h0 => rw [h0, Nat.digits_zero]
    · next h0 =>
      have hlt : carry / base < carry := Nat.div_lt_self (Nat.pos_of_ne_zero h0) hb
      rw [Nat.digits_def' hb (Nat.pos_of_ne_zero h0), ih (by omega)]

/-- **A step of counting** leads from the digits of a number to those of the number after it. -/
theorem mulAdd_digits (hb : 1 < base) {factor : Nat} (hf : 0 < factor) (n carry : Nat) :
    mulAdd base factor carry (Nat.digits base n) = Nat.digits base (factor * n + carry) := by
  induction n using Nat.strongRecOn generalizing carry with
  | ind n ih =>
    rcases Nat.eq_zero_or_pos n with rfl | hn
    · rw [Nat.digits_zero, mulAdd, carryDigits_eq hb (Nat.le_refl _), Nat.mul_zero, Nat.zero_add]
    · have hsplit :
          factor * n + carry = carry + n % base * factor + base * (factor * (n / base)) := by
        calc factor * n + carry = factor * (n % base + base * (n / base)) + carry := by
              rw [Nat.mod_add_div]
          _ = carry + n % base * factor + base * (factor * (n / base)) := by ring
      have hpos : 0 < factor * n + carry := Nat.add_pos_left (Nat.mul_pos hf hn) carry
      rw [Nat.digits_def' hb hn, mulAdd, ih _ (Nat.div_lt_self hn hb), Nat.digits_def' hb hpos,
        hsplit, Nat.add_mul_mod_self_left, Nat.add_mul_div_left _ _ (by omega),
        Nat.add_comm (factor * _)]

/-- **Counting digit by digit** in one base leaves the digits of the number in the other. -/
theorem foldl_mulAdd (hb : 1 < base) {factor : Nat} (hf : 0 < factor) (ds : List Nat) (n : Nat) :
    ds.foldl (fun acc d => mulAdd base factor d acc) (Nat.digits base n) =
      Nat.digits base (ds.foldl (fun n d => factor * n + d) n) := by
  induction ds generalizing n with
  | nil => rfl
  | cons d ds ih => rw [List.foldl_cons, mulAdd_digits hb hf, ih, List.foldl_cons]

end Step

/-! ### The number of a list of digits -/

theorem value_eq_ofDigits (base : Nat) (ds : List Nat) : value base ds = Nat.ofDigits base ds := by
  induction ds with
  | nil => rfl
  | cons d ds ih => rw [value, ih, Nat.ofDigits_cons]

/-- Counting with the base itself as the factor gives the number of the digits that were counted. -/
theorem foldl_eq_value (base : Nat) (ds : List Nat) :
    ds.foldl (fun n d => base * n + d) 0 = value base ds.reverse := by
  rw [value_eq_ofDigits, Nat.ofDigits_eq_foldr, List.foldr_reverse]
  simp only [Nat.cast_id, Nat.add_comm]

/-- Counting from no digits at all leaves those of the number that was counted. -/
theorem foldl_mulAdd_nil {base factor : Nat} (hb : 1 < base) (hf : 0 < factor) (ds : List Nat) :
    ds.foldl (fun acc d => mulAdd base factor d acc) [] =
      Nat.digits base (value factor ds.reverse) := by
  have hcount := foldl_mulAdd hb hf ds 0
  rwa [Nat.digits_zero, foldl_eq_value] at hcount

/-! ### Digits with zeros in front -/

section Numeral

variable {base zeros n : Nat}

/-- **The digits of a number**, the most significant one first, behind so many zeros. -/
def numeral (base zeros n : Nat) : List Nat :=
  List.replicate zeros 0 ++ (Nat.digits base n).reverse

theorem lt_of_mem_numeral (hb : 1 < base) {d : Nat} (h : d ∈ numeral base zeros n) : d < base := by
  rcases List.mem_append.1 h with h | h
  · rw [List.eq_of_mem_replicate h]
    omega
  · exact Nat.digits_lt_base hb (List.mem_reverse.1 h)

/-- The zeros in front do not count. -/
theorem value_numeral (base zeros n : Nat) : value base (numeral base zeros n).reverse = n := by
  rw [numeral, List.reverse_append, List.reverse_reverse, List.reverse_replicate, value_eq_ofDigits,
    Nat.ofDigits_append_replicate_zero, Nat.ofDigits_digits]

/-- A list that does not start with a zero is the digits of its number alone. -/
theorem eq_numeral_of_ne_zero (hb : 1 < base) {d : Nat} {ds : List Nat}
    (h : ∀ e ∈ d :: ds, e < base) (hd : d ≠ 0) :
    d :: ds = numeral base 0 (value base (d :: ds).reverse) := by
  have hdigits : Nat.digits base (value base (d :: ds).reverse) = (d :: ds).reverse := by
    rw [value_eq_ofDigits]
    refine Nat.digits_ofDigits base hb _ (fun e he => h e (List.mem_reverse.1 he)) fun _ => ?_
    rw [List.getLast_reverse]
    exact hd
  rw [numeral, hdigits, List.reverse_reverse]
  rfl

/-- **Every list of digits** is the digits of some number behind some zeros. -/
theorem exists_eq_numeral (hb : 1 < base) {ds : List Nat} (h : ∀ d ∈ ds, d < base) :
    ∃ zeros n, ds = numeral base zeros n := by
  induction ds with
  | nil => exact ⟨0, 0, by rw [numeral, Nat.digits_zero]; rfl⟩
  | cons d ds ih =>
    rcases eq_or_ne d 0 with rfl | hd
    · obtain ⟨zeros, n, rfl⟩ := ih fun d hd => h d (List.mem_cons_of_mem _ hd)
      exact ⟨zeros + 1, n, rfl⟩
    · exact ⟨0, _, eq_numeral_of_ne_zero hb h hd⟩

/-- The digits of a number do not start with a zero. -/
theorem ne_zero_of_reverse_digits {d : Nat} {ds : List Nat}
    (h : (Nat.digits base n).reverse = d :: ds) : d ≠ 0 := by
  have hdigits : Nat.digits base n = ds.reverse ++ [d] := by
    rw [← List.reverse_cons, ← h, List.reverse_reverse]
  have hn : n ≠ 0 := by
    rintro rfl
    simp at hdigits
  have hlast := Nat.getLast_digit_ne_zero base hn
  simpa only [hdigits, List.getLast_append_singleton] using hlast

/-- **The zeros in front** are those that a text starts with, if only the value zero is written as
the zero digit. -/
theorem takeWhile_map_numeral (hb : 1 < base) {write : Nat → UInt8} {zeroDigit : UInt8}
    (hwrite : ∀ d < base, write d = zeroDigit ↔ d = 0) (zeros n : Nat) :
    ((numeral base zeros n).map write).takeWhile (· == zeroDigit) =
      List.replicate zeros zeroDigit := by
  induction zeros with
  | zero =>
    rw [numeral, List.replicate_zero, List.nil_append]
    cases h : (Nat.digits base n).reverse with
    | nil => rfl
    | cons d ds =>
      have hlt : d < base := by
        have hmem : d ∈ (Nat.digits base n).reverse := h ▸ List.mem_cons_self
        exact Nat.digits_lt_base hb (List.mem_reverse.1 hmem)
      have hd := (hwrite d hlt).not.2 (ne_zero_of_reverse_digits h)
      rw [List.map_cons, List.takeWhile_cons_of_neg (by simpa using hd)]
      rfl
  | succ zeros ih =>
    have hzero : write 0 = zeroDigit := (hwrite 0 (by omega)).2 rfl
    have hsucc : numeral base (zeros + 1) n = 0 :: numeral base zeros n := rfl
    rw [hsucc, List.map_cons, List.takeWhile_cons_of_pos (by simpa using hzero), ih, hzero,
      List.replicate_succ]

end Numeral

end WitnessSigning.Radix
