import WitnessSigning.Proofs.Text.Checksum
import WitnessSigning.Proofs.Text.Register

/-!
# Syndromes of a remainder

Read as a polynomial whose coefficients are the groups of five bits, a remainder is reduced modulo
the generator polynomial. Its values at three of the roots of that polynomial, which are
consecutive powers of one element, are its syndromes (`WitnessSigning.Bech32.syndrome`). Taking a
value into a remainder multiplies a syndrome by the root and adds the value
(`WitnessSigning.Bech32.syndrome_remainderStep`), because every generator is what the bit that it
belongs to turns into (`WitnessSigning.Bech32.syndrome_generator`). So the syndromes of all values
together are those of their polynomial (`WitnessSigning.Bech32.syndrome_foldl`).
-/

namespace WitnessSigning.Bech32

/-! ### Values -/

/-- **Five bits in the field**, in which the lowest but one stands for `root ^ 924`. -/
noncomputable def ofValue (v : UInt8) : Extension :=
  bitSum (fun i => root ^ (924 * i)) 5 v.toNat.testBit

/-- The logarithms of the values other than zero. -/
def logarithms : List Nat :=
  [0, 0, 1, 14, 2, 28, 15, 22, 3, 5, 29, 26, 16, 7, 23, 11, 4, 25, 6, 10, 30, 13, 27, 21, 17, 18,
    8, 19, 24, 9, 12, 20]

theorem powerSum_logarithm : ∀ n < 32, n ≠ 0 →
    powerSum (924 * ·) n.testBit 5 = power (924 * logarithms.getD n 0) := by
  decide +kernel

/-- **Every value but zero** is a power of `root ^ 924`. -/
theorem exists_ofValue_eq_pow {v : UInt8} (hv : v.toNat < 32) (hne : v ≠ 0) :
    ∃ l, ofValue v = root ^ (924 * l) := by
  have hne' : v.toNat ≠ 0 := fun h => hne (UInt8.toNat_inj.1 h)
  exact ⟨_, bitSum_eq_pow (powerSum_logarithm v.toNat hv hne')⟩

theorem ofValue_zero : ofValue 0 = 0 := by
  simp [ofValue, bitSum]

theorem ofValue_eq_zero_iff {v : UInt8} (hv : v.toNat < 32) : ofValue v = 0 ↔ v = 0 := by
  constructor
  · intro h
    by_contra hne
    obtain ⟨l, hl⟩ := exists_ofValue_eq_pow hv hne
    exact pow_ne_zero _ root_ne_zero (hl.symm.trans h)
  · rintro rfl
    exact ofValue_zero

/-! ### Remainders -/

/-- The exponent of the root for a bit of a remainder: that of the bit in its group, and that of the
group, which is a power of the root with the number `m` of the generator polynomial. -/
def bitExponent (m i : Nat) : Nat :=
  924 * (i % 5) + (24 + m) * (i / 5)

theorem root_pow_bitExponent_add (m i : Nat) :
    root ^ bitExponent m (5 + i) = root ^ (24 + m) * root ^ bitExponent m i := by
  rw [← pow_add, bitExponent, bitExponent, Nat.add_mod_left, Nat.add_div_left _ (by decide)]
  ring_nf

/-- **A syndrome** is the value of a remainder at a root of the generator polynomial. -/
noncomputable def syndrome (m : Nat) (s : BitVec 30) : Extension :=
  bitSum (fun i => root ^ bitExponent m i) 30 s.getLsbD

variable {m : Nat}

theorem syndrome_zero (m : Nat) : syndrome m 0#30 = 0 := by
  simp [syndrome, bitSum]

theorem syndrome_xor (m : Nat) (s t : BitVec 30) :
    syndrome m (s ^^^ t) = syndrome m s + syndrome m t := by
  rw [syndrome, syndrome, syndrome, ← bitSum_xor]
  exact bitSum_congr (fun _ _ => rfl) fun i _ => BitVec.getLsbD_xor

/-- **A generator** takes the place of the bit that is shifted out. -/
theorem syndrome_generator (hm : m < 3) {p : BitVec 30 × Nat} (hp : p ∈ generators.zipIdx) :
    syndrome m p.1 = root ^ bitExponent m (30 + p.2) := by
  have hcode : ∀ m < 3, ∀ p ∈ generators.zipIdx,
      powerSum (bitExponent m) p.1.getLsbD 30 = power (bitExponent m (30 + p.2)) := by
    decide +kernel
  exact bitSum_eq_pow (hcode m hm p hp)

/-- Moving up by a group multiplies by the root, as far as no bit is lost. -/
theorem syndrome_shiftLeft (m : Nat) (s : BitVec 30) : syndrome m (s <<< 5) =
    root ^ (24 + m) * bitSum (fun i => root ^ bitExponent m i) 25 s.getLsbD := by
  have hlow : bitSum (fun i => root ^ bitExponent m i) 5 (s <<< 5).getLsbD = 0 := by
    refine (bitSum_congr (fun _ _ => rfl) fun i hi => ?_).trans bitSum_false
    rw [BitVec.getLsbD_shiftLeft, decide_eq_true hi, Bool.not_true, Bool.and_false, Bool.false_and]
  rw [syndrome, bitSum_add _ 5 25, hlow, zero_add, ← bitSum_mul_left]
  refine bitSum_congr (fun i _ => root_pow_bitExponent_add m i) fun i hi => ?_
  have hmoved : 5 + i < 30 ∧ ¬5 + i < 5 := by omega
  rw [BitVec.getLsbD_shiftLeft, decide_eq_true hmoved.1, decide_eq_false hmoved.2, Bool.not_false,
    Bool.true_and, Bool.true_and, Nat.add_sub_cancel_left]

theorem syndrome_ofNat (m : Nat) {v : UInt8} (hv : v.toNat < 32) :
    syndrome m (BitVec.ofNat 30 v.toNat) = ofValue v := by
  have hhigh : bitSum (fun i => root ^ bitExponent m (5 + i)) 25
      (fun i => (BitVec.ofNat 30 v.toNat).getLsbD (5 + i)) = 0 := by
    refine (bitSum_congr (fun _ _ => rfl) fun i hi => ?_).trans bitSum_false
    have hbit : v.toNat.testBit (5 + i) = false :=
      Nat.testBit_lt_two_pow (hv.trans_le (Nat.pow_le_pow_right Nat.two_pos (Nat.le_add_right 5 i)))
    rw [BitVec.getLsbD_ofNat, hbit, Bool.and_false]
  rw [syndrome, bitSum_add _ 5 25, hhigh, add_zero, ofValue]
  refine bitSum_congr (fun i hi => ?_) fun i hi => ?_
  · rw [bitExponent, Nat.mod_eq_of_lt hi, Nat.div_eq_of_lt hi, Nat.mul_zero, Nat.add_zero]
  · rw [BitVec.getLsbD_ofNat, decide_eq_true (by omega : i < 30), Bool.true_and]

/-- Reducing adds the syndromes of the generators whose bits are set. -/
theorem syndrome_foldl_reduce (gs : List (BitVec 30 × Nat)) (s acc : BitVec 30) :
    syndrome m (gs.foldl (reduce s) acc) = syndrome m acc +
      (gs.map fun p => if s.getLsbD (25 + p.2) then syndrome m p.1 else 0).sum := by
  induction gs generalizing acc with
  | nil => simp
  | cons p gs ih =>
    have hstep : syndrome m (reduce s acc p) =
        syndrome m acc + if s.getLsbD (25 + p.2) then syndrome m p.1 else 0 := by
      rw [reduce]
      split
      · exact syndrome_xor m _ _
      · exact (add_zero _).symm
    rw [List.foldl_cons, ih, hstep, List.map_cons, List.sum_cons, add_assoc]

/-- **The generators add** what the group that is shifted out turns into. -/
theorem sum_syndrome_generators (hm : m < 3) (s : BitVec 30) :
    (generators.zipIdx.map fun p => if s.getLsbD (25 + p.2) then syndrome m p.1 else 0).sum =
      root ^ (24 + m) *
        bitSum (fun i => root ^ bitExponent m (25 + i)) 5 fun i => s.getLsbD (25 + i) := by
  have hplaces : generators.zipIdx.map Prod.snd = List.range 5 := rfl
  have hterms :
      (generators.zipIdx.map fun p => if s.getLsbD (25 + p.2) then syndrome m p.1 else 0) =
      (List.range 5).map fun i =>
        if s.getLsbD (25 + i) then root ^ (24 + m) * root ^ bitExponent m (25 + i) else 0 := by
    rw [← hplaces, List.map_map]
    refine List.map_congr_left fun p hp => ?_
    rw [syndrome_generator hm hp, Function.comp_apply, ← root_pow_bitExponent_add, ← Nat.add_assoc]
  rw [hterms, ← bitSum_mul_left]
  rfl

/-- **Taking a value into a remainder** multiplies its syndromes by their roots
and adds the value. -/
theorem syndrome_remainderStep (hm : m < 3) (s : BitVec 30) {v : UInt8} (hv : v.toNat < 32) :
    syndrome m (remainderStep s v) = root ^ (24 + m) * syndrome m s + ofValue v := by
  rw [remainderStep, syndrome_foldl_reduce, sum_syndrome_generators hm, syndrome_xor,
    syndrome_shiftLeft, syndrome_ofNat m hv, syndrome, bitSum_add _ 25 5 s.getLsbD]
  ring

/-- **The syndromes of a sequence of values** are the values of the polynomial that has them for
coefficients, the last one for the lowest. -/
theorem syndrome_foldl (hm : m < 3) {values : Bytes} (hvalues : ∀ v ∈ values, v.toNat < 32)
    {n : Nat} (hn : values.length ≤ n) : syndrome m (values.foldl remainderStep 0#30) =
      ∑ p ∈ Finset.range n, ofValue (values.reverse.getD p 0) * root ^ ((24 + m) * p) := by
  induction values using List.reverseRecOn generalizing n with
  | nil => simp [syndrome_zero, ofValue_zero]
  | append_singleton values v ih =>
    rw [List.length_append, List.length_singleton] at hn
    obtain ⟨n, rfl⟩ : ∃ n', n = n' + 1 := ⟨n - 1, by omega⟩
    have hv : v.toNat < 32 := hvalues v (List.mem_append_right _ (List.mem_singleton_self v))
    have hvalues : ∀ w ∈ values, w.toNat < 32 := fun w hw => hvalues w (List.mem_append_left _ hw)
    rw [List.foldl_append, List.foldl_cons, List.foldl_nil, syndrome_remainderStep hm _ hv,
      ih hvalues (Nat.le_of_succ_le_succ hn), Finset.sum_range_succ', Finset.mul_sum,
      List.reverse_append, List.reverse_singleton, List.singleton_append]
    refine congr_arg₂ (· + ·) (Finset.sum_congr rfl fun p _ => ?_) ?_
    · rw [List.getD_cons_succ, Nat.mul_succ, pow_add]
      ring
    · rw [List.getD_cons_zero, Nat.mul_zero, pow_zero, mul_one]

end WitnessSigning.Bech32
