import Mathlib.Data.List.GetD
import Mathlib.Data.List.Nodup
import WitnessSigning.Text.Base58
import WitnessSigning.Text.Bech32

/-!
# Alphabets

An alphabet writes a value as the symbol at that place and reads a symbol as the place where it
stands. No alphabet here holds a symbol twice, so reading finds the value that was written
(`WitnessSigning.idxOf?_eq_some_iff_of_nodup`).
-/

namespace WitnessSigning

/-- **The place of a symbol** in an alphabet where it stands only once. -/
theorem idxOf?_eq_some_iff_of_nodup {α : Type} [BEq α] [LawfulBEq α] {xs : List α}
    (h : xs.Nodup) (d : α) {a : α} {i : Nat} :
    xs.idxOf? a = some i ↔ i < xs.length ∧ a = xs.getD i d := by
  rw [List.idxOf?_eq_some_iff]
  constructor
  · rintro ⟨hlt, rfl, -⟩
    exact ⟨hlt, (List.getD_eq_getElem _ _ hlt).symm⟩
  · rintro ⟨hlt, rfl⟩
    rw [List.getD_eq_getElem _ _ hlt]
    exact ⟨hlt, rfl, fun j hj he => Nat.ne_of_lt hj ((List.Nodup.getElem_inj_iff h).1 he)⟩

namespace Base58

theorem nodup_alphabet : alphabet.Nodup := by decide

theorem length_alphabet : alphabet.length = 58 := by decide

/-- The digit of a value. -/
def digit (v : Nat) : UInt8 :=
  alphabet.getD v zeroDigit

/-- **The value of a digit** is below 58 and no other digit has it. -/
theorem value_eq_ok_iff {c : UInt8} {v : Nat} : value c = .ok v ↔ v < 58 ∧ c = digit v := by
  rw [← length_alphabet, digit, ← idxOf?_eq_some_iff_of_nodup nodup_alphabet, value]
  cases alphabet.idxOf? c with
  | none => simp
  | some v' => simp

/-- The octets with a value are those of the alphabet. -/
theorem mem_alphabet_iff {c : UInt8} : c ∈ alphabet ↔ ∃ v, value c = .ok v := by
  rw [value]
  cases h : alphabet.idxOf? c with
  | none => exact iff_of_false (List.idxOf?_eq_none_iff.1 h) (fun ⟨_, h⟩ => nomatch h)
  | some v =>
    refine iff_of_true ?_ ⟨v, rfl⟩
    by_contra hc
    rw [List.idxOf?_eq_none_iff.2 hc] at h
    cases h

/-- An octet without a value is reported. -/
theorem value_eq_error {c : UInt8} {e : Error} (h : value c = .error e) : e = .base58Digit c := by
  rw [value] at h
  split at h
  · cases h
  · cases h
    rfl

/-- Only the value zero has the zero digit. -/
theorem digit_eq_zeroDigit_iff {v : Nat} (hv : v < 58) : digit v = zeroDigit ↔ v = 0 := by
  have hzero : value zeroDigit = .ok 0 := by decide
  constructor
  · intro h
    have hvalue : value zeroDigit = .ok v := value_eq_ok_iff.2 ⟨hv, h.symm⟩
    exact Except.ok.inj (hvalue.symm.trans hzero)
  · rintro rfl
    exact ((value_eq_ok_iff.1 hzero).2).symm

end Base58

namespace Bech32

open Text (isUpper)

theorem nodup_alphabet : alphabet.Nodup := by decide

theorem length_alphabet : alphabet.length = 32 := by decide

/-- **The value of a symbol** is below 32 and no other symbol has it. -/
theorem idxOf?_alphabet {c : UInt8} {v : UInt8} :
    (alphabet.idxOf? c).map UInt8.ofNat = some v ↔ v.toNat < 32 ∧ c = symbol v := by
  rw [← length_alphabet, symbol, ← idxOf?_eq_some_iff_of_nodup nodup_alphabet,
    Option.map_eq_some_iff]
  constructor
  · rintro ⟨i, hi, rfl⟩
    have hlt := ((idxOf?_eq_some_iff_of_nodup nodup_alphabet 0).1 hi).1
    rw [length_alphabet] at hlt
    rwa [UInt8.toNat_ofNat_of_lt' (by simp only [UInt8.size]; omega)]
  · exact fun h => ⟨_, h, UInt8.ofNat_toNat⟩

/-- No two values have one symbol. -/
theorem symbol_injective {v w : UInt8} (hv : v.toNat < 32) (hw : w.toNat < 32)
    (h : symbol v = symbol w) : v = w := by
  have hread := (idxOf?_alphabet (c := symbol v)).2 ⟨hv, rfl⟩
  exact Option.some.inj (hread.symm.trans (idxOf?_alphabet.2 ⟨hw, h⟩))

/-- **The symbols** are printable, in lower case, and none of them is the separator. -/
theorem symbol_printable {v : UInt8} (hv : v.toNat < 32) :
    symbol v ≠ separator ∧ isUpper (symbol v) = false ∧ 33 ≤ symbol v ∧ symbol v ≤ 126 := by
  have halphabet : ∀ c ∈ alphabet, c ≠ separator ∧ isUpper c = false ∧ 33 ≤ c ∧ c ≤ 126 := by
    decide +kernel
  have hmem : symbol v ∈ alphabet := by
    rw [symbol, List.getD_eq_getElem _ _ (by rwa [length_alphabet])]
    exact List.getElem_mem _
  exact halphabet _ hmem

end Bech32

end WitnessSigning
