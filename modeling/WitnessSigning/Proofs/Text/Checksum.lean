import Mathlib.Data.LawfulXor.Basic
import WitnessSigning.Proofs.Text.Regroup
import WitnessSigning.Text.Bech32

/-!
# One checksum for every address

Taking a value into a remainder is linear over exclusive or
(`WitnessSigning.Bech32.remainderStep_xor`), and so is taking in as many values
(`WitnessSigning.Bech32.foldl_remainderStep_zipWith`). The last six values of an address are not
reduced any more: as many of five bits each just fill the 30 bits of a remainder, so what they
contribute is their number (`WitnessSigning.Bech32.foldl_remainderStep_zero`). The remainder is
therefore the one with six zeros in their place, changed in the bits of that number, and there is
one number only that brings it to one (`WitnessSigning.Bech32.remainder_eq_one_iff`).
-/

namespace WitnessSigning.Bech32

open Regroup

/-! ### Linearity -/

/-- Reducing is linear in the state that is shifted out and in what is left of it. -/
theorem foldl_reduce_xor (gs : List (BitVec 30 × Nat)) (s t a b : BitVec 30) :
    gs.foldl (reduce (s ^^^ t)) (a ^^^ b) = gs.foldl (reduce s) a ^^^ gs.foldl (reduce t) b := by
  induction gs generalizing a b with
  | nil => rfl
  | cons p gs ih =>
    obtain ⟨g, i⟩ := p
    have hstep : reduce (s ^^^ t) (a ^^^ b) (g, i) = reduce s a (g, i) ^^^ reduce t b (g, i) := by
      rw [reduce, reduce, reduce, BitVec.getLsbD_xor]
      cases s.getLsbD (25 + i) <;> cases t.getLsbD (25 + i) <;>
        simp only [Bool.xor_false, Bool.false_xor, Bool.xor_self, if_true, if_false,
          Bool.false_eq_true]
      -- The generator is added on one side only, or on both, where it cancels.
      · ac_rfl
      · ac_rfl
      · calc a ^^^ b = a ^^^ b ^^^ (g ^^^ g) := by rw [BitVec.xor_self, BitVec.xor_zero]
          _ = a ^^^ g ^^^ (b ^^^ g) := by ac_rfl
    rw [List.foldl_cons, hstep, ih]
    rfl

/-- **A step is linear** in state and value together. -/
theorem remainderStep_xor (s t : BitVec 30) (v w : UInt8) :
    remainderStep (s ^^^ t) (v ^^^ w) = remainderStep s v ^^^ remainderStep t w := by
  have hstart : (s ^^^ t) <<< 5 ^^^ BitVec.ofNat 30 (v ^^^ w).toNat =
      (s <<< 5 ^^^ BitVec.ofNat 30 v.toNat) ^^^ (t <<< 5 ^^^ BitVec.ofNat 30 w.toNat) := by
    rw [BitVec.shiftLeft_xor_distrib, UInt8.toNat_xor, BitVec.ofNat_xor]
    ac_rfl
  rw [remainderStep, hstart, foldl_reduce_xor]
  rfl

/-- **Remainders are linear** in where they start and in as many values. -/
theorem foldl_remainderStep_zipWith {values values' : Bytes} (h : values.length = values'.length)
    (s t : BitVec 30) : (List.zipWith (· ^^^ ·) values values').foldl remainderStep (s ^^^ t) =
      values.foldl remainderStep s ^^^ values'.foldl remainderStep t := by
  induction values generalizing values' s t with
  | nil =>
    cases List.length_eq_zero_iff.1 h.symm
    rfl
  | cons v values ih =>
    cases values' with
    | nil => cases h
    | cons w values' =>
      rw [List.zipWith_cons_cons, List.foldl_cons, remainderStep_xor, ih (Nat.succ.inj h)]
      rfl

/-- **What values contribute** to a remainder does not depend on what is in front of them. -/
theorem foldl_remainderStep_xor (values : Bytes) (s t : BitVec 30) :
    values.foldl remainderStep (s ^^^ t) =
      (List.replicate values.length 0).foldl remainderStep s ^^^ values.foldl remainderStep t := by
  have hzip : List.zipWith (· ^^^ ·) (List.replicate values.length 0) values = values := by
    refine List.ext_getElem (by simp) fun i _ _ => ?_
    rw [List.getElem_zipWith, List.getElem_replicate, UInt8.zero_xor]
  rw [← foldl_remainderStep_zipWith (List.length_replicate ..), hzip]

/-! ### Six values -/

/-- A value that fits under what was moved up is added to it. -/
theorem xor_eq_add {width n v : Nat} (hv : v < 2 ^ width) :
    n * 2 ^ width ^^^ v = v + 2 ^ width * n := by
  rw [Nat.add_comm, Nat.two_pow_add_eq_or_of_lt hv, Nat.mul_comm]
  refine Nat.eq_of_testBit_eq fun i => ?_
  rw [Nat.testBit_xor, Nat.testBit_or, Nat.testBit_two_pow_mul]
  by_cases hi : width ≤ i
  · have hclear := Nat.testBit_lt_two_pow (hv.trans_le (Nat.pow_le_pow_right (by decide) hi))
    rw [hclear, Bool.xor_false, Bool.or_false]
  · rw [decide_eq_false hi, Bool.false_and, Bool.false_xor, Bool.false_or]

/-- A state whose five highest bits are clear only moves up. -/
theorem remainderStep_ofNat {n : Nat} (hn : n < 2 ^ 25) {v : UInt8} (hv : v.toNat < 2 ^ 5) :
    remainderStep (BitVec.ofNat 30 n) v = BitVec.ofNat 30 (v.toNat + 2 ^ 5 * n) := by
  have hclear : ∀ (acc : BitVec 30) (p : BitVec 30 × Nat),
      reduce (BitVec.ofNat 30 n) acc p = acc := by
    rintro acc ⟨g, i⟩
    have hbit : (BitVec.ofNat 30 n).getLsbD (25 + i) = false := by
      rw [BitVec.getLsbD_ofNat, Nat.testBit_lt_two_pow, Bool.and_false]
      exact hn.trans_le (Nat.pow_le_pow_right (by decide) (Nat.le_add_right _ _))
    rw [reduce, hbit, if_neg Bool.false_ne_true]
  have hreduce : ∀ (gs : List (BitVec 30 × Nat)) (acc : BitVec 30),
      gs.foldl (reduce (BitVec.ofNat 30 n)) acc = acc := by
    intro gs acc
    induction gs with
    | nil => rfl
    | cons p gs ih => rw [List.foldl_cons, hclear, ih]
  have hmoved : n * 2 ^ 5 < 2 ^ 30 := by omega
  have hsum : v.toNat + 2 ^ 5 * n < 2 ^ 30 := by omega
  rw [remainderStep, hreduce]
  refine BitVec.eq_of_toNat_eq ?_
  rw [BitVec.toNat_xor, BitVec.toNat_shiftLeft, BitVec.toNat_ofNat, BitVec.toNat_ofNat,
    BitVec.toNat_ofNat, Nat.shiftLeft_eq, Nat.mod_eq_of_lt (a := n) (by omega),
    Nat.mod_eq_of_lt hmoved, Nat.mod_eq_of_lt (a := v.toNat) (by omega), Nat.mod_eq_of_lt hsum]
  exact xor_eq_add hv

/-- **Up to six values** of five bits each stand in the remainder as they are. -/
theorem foldl_remainderStep_zero {values : Bytes} (hlength : values.length ≤ checksumLength)
    (hvalues : ∀ v ∈ values, v.toNat < 2 ^ 5) :
    values.foldl remainderStep 0#30 = BitVec.ofNat 30 (number 5 values) := by
  induction values using List.reverseRecOn with
  | nil => rfl
  | append_singleton values v ih =>
    have hv : v.toNat < 2 ^ 5 := hvalues v (List.mem_append_right _ (List.mem_singleton_self v))
    have hvalues : ∀ w ∈ values, w.toNat < 2 ^ 5 :=
      fun w hw => hvalues w (List.mem_append_left _ hw)
    rw [List.length_append, List.length_singleton, checksumLength] at hlength
    have hlt : number 5 values < 2 ^ 25 :=
      (number_lt hvalues).trans_le (Nat.pow_le_pow_right (by decide) (by omega))
    rw [List.foldl_append, ih (by rw [checksumLength]; omega) hvalues, List.foldl_cons,
      List.foldl_nil, remainderStep_ofNat hlt hv, number_append_singleton]

/-! ### The checksum -/

theorem length_checksum (hrp : Text) (values : Bytes) :
    (checksum hrp values).length = checksumLength := by
  rw [checksum, List.length_map, List.length_range]

/-- Five bits of a remainder as a value. -/
theorem toNat_extract (r : BitVec 30) (k : Nat) :
    (UInt8.ofNat (r.extractLsb' k 5).toNat).toNat = r.toNat / 2 ^ k % 2 ^ 5 := by
  have hlt := (r.extractLsb' k 5).isLt
  rw [UInt8.toNat_ofNat_of_lt' (by simp only [UInt8.size]; omega), BitVec.extractLsb'_toNat,
    Nat.shiftRight_eq_div_pow]

theorem lt_of_mem_checksum {hrp : Text} {values : Bytes} {v : UInt8} (h : v ∈ checksum hrp values) :
    v.toNat < 2 ^ 5 := by
  obtain ⟨i, -, rfl⟩ := List.mem_map.1 h
  rw [toNat_extract]
  exact Nat.mod_lt _ (by decide)

/-- **The checksum as a number** is the difference between one and the remainder over six zeros. -/
theorem number_checksum (hrp : Text) (values : Bytes) :
    number 5 (checksum hrp values) =
      (remainder (expand hrp ++ values ++ List.replicate checksumLength 0) ^^^ 1).toNat := by
  have hrange : List.range checksumLength = [0, 1, 2, 3, 4, 5] := rfl
  rw [checksum, hrange, number]
  generalize remainder (expand hrp ++ values ++ List.replicate checksumLength 0) ^^^ 1 = r
  have hr := r.isLt
  simp only [List.map_cons, List.map_nil, List.reverse_cons, List.reverse_nil, List.nil_append,
    List.cons_append, toNat_extract, Radix.value]
  omega

/-- **The checksum** is the one list of six values of five bits each that brings the remainder to
one. -/
theorem remainder_eq_one_iff {hrp : Text} {values last : Bytes}
    (hlength : last.length = checksumLength) (hlast : ∀ v ∈ last, v.toNat < 2 ^ 5) :
    remainder (expand hrp ++ values ++ last) = 1 ↔ last = checksum hrp values := by
  have hsplit : remainder (expand hrp ++ values ++ last) =
      remainder (expand hrp ++ values ++ List.replicate checksumLength 0) ^^^
        BitVec.ofNat 30 (number 5 last) := by
    have hxor := foldl_remainderStep_xor last ((expand hrp ++ values).foldl remainderStep 1) 0#30
    rw [BitVec.xor_zero, foldl_remainderStep_zero hlength.le hlast, hlength] at hxor
    rw [remainder, List.foldl_append, hxor, remainder,
      List.foldl_append (l := expand hrp ++ values)]
  have hnumber : number 5 last < 2 ^ 30 := by
    have hlt := number_lt hlast
    rwa [hlength] at hlt
  calc remainder (expand hrp ++ values ++ last) = 1
      ↔ BitVec.ofNat 30 (number 5 last) =
          remainder (expand hrp ++ values ++ List.replicate checksumLength 0) ^^^ 1 := by
        rw [hsplit, xor_eq_iff_right_eq]
    _ ↔ number 5 last = number 5 (checksum hrp values) := by
        rw [number_checksum, ← BitVec.toNat_inj, BitVec.toNat_ofNat, Nat.mod_eq_of_lt hnumber]
    _ ↔ last = checksum hrp values :=
        ⟨number_injective (by decide) hlast (fun _ => lt_of_mem_checksum)
          (hlength.trans (length_checksum _ _).symm), congrArg _⟩

/-- **A checksum** of values behind a human-readable part: six values of five bits
each that bring the remainder to one. -/
structure IsChecksum (hrp : Text) (values last : Bytes) : Prop where
  length_last : last.length = checksumLength
  lt_of_mem : ∀ v ∈ last, v.toNat < 2 ^ 5
  remainder_eq : remainder (expand hrp ++ values ++ last) = 1

theorem isChecksum_iff {hrp : Text} {values last : Bytes} :
    IsChecksum hrp values last ↔ last = checksum hrp values := by
  constructor
  · rintro ⟨hlength, hlt, hone⟩
    exact (remainder_eq_one_iff hlength hlt).1 hone
  · rintro rfl
    have hlt : ∀ v ∈ checksum hrp values, v.toNat < 2 ^ 5 := fun _ => lt_of_mem_checksum
    have hlength := length_checksum hrp values
    exact ⟨hlength, hlt, (remainder_eq_one_iff hlength hlt).2 rfl⟩

/-- The values of a checksum are the groups of five bits of one number, from the
highest ones down. -/
theorem map_toNat_checksum (hrp : Text) (values : Bytes) :
    (checksum hrp values).map UInt8.toNat = (List.range checksumLength).map fun i =>
      (remainder (expand hrp ++ values ++ List.replicate checksumLength 0) ^^^ 1).toNat >>>
        (5 * (5 - i)) &&& 31 := by
  rw [checksum, List.map_map]
  refine List.map_congr_left fun i _ => ?_
  rw [Function.comp_apply, toNat_extract, Nat.shiftRight_eq_div_pow,
    show 31 = 2 ^ 5 - 1 by omega, Nat.and_two_pow_sub_one_eq_mod]

/-- **There is a checksum for all values, and only one.** Whatever the human-readable part
and the number of values, one list only of six values of five bits each brings the
remainder to one. It is read off the remainder over six zeros in its place, five bits at a
time, and it is what an address ends with. -/
theorem existsUnique_isChecksum (hrp : Text) (values : Bytes) :
    (∃! last : Bytes, IsChecksum hrp values last) ∧
      (∀ last : Bytes, IsChecksum hrp values last ↔
        last.map UInt8.toNat = (List.range checksumLength).map fun i =>
          (remainder (expand hrp ++ values ++ List.replicate checksumLength 0) ^^^ 1).toNat >>>
            (5 * (5 - i)) &&& 31) ∧
      ∀ program : Bytes, ∃ last : Bytes, IsChecksum hrp (programValues program) last ∧
        encode hrp program = hrp ++ separator :: (programValues program ++ last).map symbol := by
  refine ⟨⟨checksum hrp values, isChecksum_iff.2 rfl, fun last => isChecksum_iff.1⟩, fun last => ?_,
    fun program => ⟨checksum hrp (programValues program), isChecksum_iff.2 rfl, rfl⟩⟩
  have hinj : Function.Injective (List.map UInt8.toNat) :=
    List.map_injective_iff.2 fun _ _ => UInt8.toNat_inj.1
  rw [isChecksum_iff, ← map_toNat_checksum, hinj.eq_iff]

end WitnessSigning.Bech32
