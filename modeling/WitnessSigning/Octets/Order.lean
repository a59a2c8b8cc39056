import WitnessSigning.Error

/-!
# Numbers as octets

`w` octets hold the numbers below `256 ^ w`, which is `WitnessSigning.capacity w`. They are
written from the least significant octet (the order of wire fields) or from the most significant
one (the order of keys, digests and signatures). The two orders are one another's reverse, so
the laws are proved once, for the little-endian order:
`WitnessSigning.ofLittleEndian_littleEndian` reads back what was written, and
`WitnessSigning.littleEndian_ofLittleEndian` writes back what was read.
-/

namespace WitnessSigning

/-! ### From the least significant octet -/

/-- The number of values that `w` octets can hold, `256 ^ w`. -/
def capacity : Nat → Nat
  | 0 => 1
  | w + 1 => 256 * capacity w

/-- The low `w` octets of a number, the least significant one first. -/
def littleEndian : Nat → Nat → Bytes
  | 0, _ => []
  | w + 1, v => UInt8.ofNat v :: littleEndian w (v / 256)

/-- The number whose octets are given, the least significant one first. -/
def ofLittleEndian : Bytes → Nat
  | [] => 0
  | b :: bs => b.toNat + 256 * ofLittleEndian bs

theorem length_littleEndian (w v : Nat) : (littleEndian w v).length = w := by
  induction w generalizing v with
  | zero => rfl
  | succ w ih => simp [littleEndian, ih]

/-- What was written reads back, up to the octets that were dropped. -/
theorem ofLittleEndian_littleEndian (w v : Nat) :
    ofLittleEndian (littleEndian w v) = v % capacity w := by
  induction w generalizing v with
  | zero => simp [littleEndian, ofLittleEndian, capacity, Nat.mod_one]
  | succ w ih => simp [littleEndian, ofLittleEndian, ih, capacity, Nat.mod_mul]

/-- What was read is written back, in as many octets. -/
theorem littleEndian_ofLittleEndian (bs : Bytes) :
    littleEndian bs.length (ofLittleEndian bs) = bs := by
  induction bs with
  | nil => rfl
  | cons b bs ih =>
    have hb : b.toNat < 256 := b.toNat_lt
    have hdiv : (b.toNat + 256 * ofLittleEndian bs) / 256 = ofLittleEndian bs := by omega
    have hmod : UInt8.ofNat (b.toNat + 256 * ofLittleEndian bs) = b := by
      apply UInt8.toNat_inj.1
      rw [UInt8.toNat_ofNat']
      omega
    simp [littleEndian, ofLittleEndian, hdiv, hmod, ih]

theorem ofLittleEndian_lt (bs : Bytes) : ofLittleEndian bs < capacity bs.length := by
  induction bs with
  | nil => simp [ofLittleEndian, capacity]
  | cons b bs ih =>
    have hb : b.toNat < 256 := b.toNat_lt
    simp only [ofLittleEndian, List.length_cons, capacity]
    omega

/-! ### From the most significant octet -/

/-- The low `w` octets of a number, the most significant one first. -/
def bigEndian (w v : Nat) : Octets w :=
  ⟨(littleEndian w v).reverse, by simp [length_littleEndian]⟩

/-- The number whose octets are given, the most significant one first. -/
def ofBigEndian (bs : Bytes) : Nat :=
  bs.foldl (fun v b => 256 * v + b.toNat) 0

private theorem foldl_bigEndian (bs : Bytes) (v : Nat) :
    bs.foldl (fun v b => 256 * v + b.toNat) v =
      capacity bs.length * v + ofLittleEndian bs.reverse := by
  induction bs generalizing v with
  | nil => simp [ofLittleEndian, capacity]
  | cons b bs ih =>
    have happ : ∀ (xs : Bytes) (c : UInt8),
        ofLittleEndian (xs ++ [c]) = ofLittleEndian xs + capacity xs.length * c.toNat := by
      intro xs c
      induction xs with
      | nil => simp [ofLittleEndian, capacity]
      | cons x xs ihx =>
        simp only [List.cons_append, ofLittleEndian, ihx, List.length_cons, capacity]
        rw [Nat.mul_add, Nat.mul_assoc]
        omega
    rw [List.foldl_cons, ih, List.reverse_cons, happ, List.length_cons, List.length_reverse,
      capacity, Nat.mul_add]
    have : capacity bs.length * (256 * v) = 256 * capacity bs.length * v := by
      rw [Nat.mul_left_comm, Nat.mul_assoc]
    omega

/-- The two orders differ by reversal only. -/
theorem ofBigEndian_eq (bs : Bytes) : ofBigEndian bs = ofLittleEndian bs.reverse := by
  simp [ofBigEndian, foldl_bigEndian]

theorem ofBigEndian_bigEndian (w v : Nat) :
    ofBigEndian (bigEndian w v).toList = v % capacity w := by
  simp [ofBigEndian_eq, bigEndian, ofLittleEndian_littleEndian]

/-- **A number that fits** reads back. -/
theorem ofBigEndian_bigEndian_of_lt {w v : Nat} (h : v < capacity w) :
    ofBigEndian (bigEndian w v).toList = v := by
  rw [ofBigEndian_bigEndian, Nat.mod_eq_of_lt h]

theorem bigEndian_ofBigEndian {w : Nat} (a : Octets w) :
    bigEndian w (ofBigEndian a.toList) = a := by
  apply Octets.ext_toList
  have h := littleEndian_ofLittleEndian a.toList.reverse
  rw [List.length_reverse, a.length_toList] at h
  simp [bigEndian, ofBigEndian_eq, h]

/-- A number in exactly `w` octets, if it fits. -/
def bigEndianExact (w v : Nat) : Except Error (Octets w) :=
  if v < capacity w then .ok (bigEndian w v) else .error .numberTooWide

theorem ofBigEndian_lt (bs : Bytes) : ofBigEndian bs < capacity bs.length := by
  simpa [ofBigEndian_eq] using ofLittleEndian_lt bs.reverse

end WitnessSigning
