import WitnessSigning.Signature.Der

/-!
# Strict DER is written in one way only

The check of the layout looks at single places of its input, the encoder puts two integers
together. This file shows that the two agree: `WitnessSigning.Signature.ofDer?` accepts exactly
what `WitnessSigning.Signature.toDer` writes, and the same holds of the items of a witness
(`WitnessSigning.Signature.ofItem?_eq_some_iff`). So signatures and their encodings correspond one
to one (`WitnessSigning.Signature.toDer_toItem_inverse`).

The argument is in two parts. The layout check accepts exactly two integers in their tags and
lengths, each of which `WitnessSigning.Signature.IsMinimal` allows
(`WitnessSigning.Signature.strictDer?_layout`). An integer that is minimal and has a value below `2
^ 256` is the one that is written for this value
(`WitnessSigning.Signature.derNumber?_eq_some_iff`).
-/

namespace WitnessSigning

/-! ### Leading zeros -/

/-- More octets hold more numbers. -/
theorem capacity_le_of_le {w w' : Nat} (h : w ≤ w') : capacity w ≤ capacity w' := by
  induction h with
  | refl => exact Nat.le_refl _
  | step _ ih => exact Nat.le_trans ih (Nat.le_mul_of_pos_left _ (by decide))

theorem ofBigEndian_zero_cons (bs : Bytes) : ofBigEndian (0 :: bs) = ofBigEndian bs := rfl

theorem ofBigEndian_replicate_append (k : Nat) (bs : Bytes) :
    ofBigEndian (List.replicate k 0 ++ bs) = ofBigEndian bs := by
  induction k with
  | zero => rfl
  | succ k ih => rw [List.replicate_succ, List.cons_append, ofBigEndian_zero_cons, ih]

/-- Leading zeros do not count. -/
theorem ofBigEndian_dropWhile (bs : Bytes) :
    ofBigEndian (bs.dropWhile (· == 0)) = ofBigEndian bs := by
  induction bs with
  | nil => rfl
  | cons b bs ih =>
    rw [List.dropWhile_cons]
    split
    · next hb =>
      obtain rfl : b = 0 := by simpa using hb
      rw [ih, ofBigEndian_zero_cons]
    · rfl

/-- A number that fewer octets hold is written with leading zeros. -/
theorem bigEndian_ofBigEndian_of_le {w : Nat} {bs : Bytes} (h : bs.length ≤ w) :
    (bigEndian w (ofBigEndian bs)).toList = List.replicate (w - bs.length) 0 ++ bs := by
  have hl : (List.replicate (w - bs.length) 0 ++ bs).length = w := by
    rw [List.length_append, List.length_replicate]
    omega
  have hb := bigEndian_ofBigEndian (⟨List.replicate (w - bs.length) 0 ++ bs, hl⟩ : Octets w)
  rw [ofBigEndian_replicate_append] at hb
  rw [hb]

theorem dropWhile_zero_cons (bs : Bytes) :
    (0 :: bs : Bytes).dropWhile (· == 0) = bs.dropWhile (· == 0) := rfl

theorem dropWhile_zero_replicate_append (k : Nat) (bs : Bytes) :
    (List.replicate k 0 ++ bs).dropWhile (· == 0) = bs.dropWhile (· == 0) := by
  induction k with
  | zero => rfl
  | succ k ih => rw [List.replicate_succ, List.cons_append, dropWhile_zero_cons, ih]

/-- What is left behind leading zeros does not start with zero. -/
theorem head?_dropWhile_zero (bs : Bytes) : (bs.dropWhile (· == 0)).head? ≠ some 0 := by
  induction bs with
  | nil => simp
  | cons b bs ih =>
    by_cases hb : (b == 0) = true
    · rwa [List.dropWhile_cons, if_pos hb]
    · rw [List.dropWhile_cons, if_neg hb]
      simpa using hb

theorem dropWhile_zero_eq_self {bs : Bytes} (h : bs.head? ≠ some 0) :
    bs.dropWhile (· == 0) = bs := by
  cases bs with
  | nil => rfl
  | cons b bs => exact List.dropWhile_cons_of_neg (by simpa using h)

/-- A number that `w` octets hold has at most `w` digits, if the first one is not zero. -/
theorem length_le_of_ofBigEndian_lt {w : Nat} {bs : Bytes} (hhead : bs.head? ≠ some 0)
    (h : ofBigEndian bs < capacity w) : bs.length ≤ w := by
  refine Nat.not_lt.1 fun hlt => ?_
  -- written in `w` octets and filled up with zeros, the number would start with zero
  have hshort := ofBigEndian_bigEndian_of_lt h
  have hle : (bigEndian w (ofBigEndian bs)).toList.length ≤ bs.length := by
    rw [(bigEndian w (ofBigEndian bs)).length_toList]
    exact Nat.le_of_lt hlt
  have hfill := bigEndian_ofBigEndian_of_le hle
  rw [hshort, bigEndian_ofBigEndian (⟨bs, rfl⟩ : Octets bs.length),
    (bigEndian w (ofBigEndian bs)).length_toList] at hfill
  obtain ⟨k, hk⟩ := Nat.exists_eq_add_of_lt hlt
  have hzeros : bs.length - w = k + 1 := by omega
  rw [hzeros, List.replicate_succ] at hfill
  exact hhead (congrArg List.head? hfill)

namespace Signature

/-! ### Minimal integers -/

/-- **A positive integer in the fewest octets** that leave its highest bit clear. -/
def IsMinimal : Bytes → Prop
  | [] => False
  | [b] => b < 0x80
  | b :: b' :: _ => b < 0x80 ∧ (b = 0 → 0x80 ≤ b')

instance : DecidablePred IsMinimal
  | [] => inferInstanceAs (Decidable False)
  | [b] => inferInstanceAs (Decidable (b < 0x80))
  | b :: b' :: _ => inferInstanceAs (Decidable (b < 0x80 ∧ (b = 0 → 0x80 ≤ b')))

/-- An integer from its digits: no digits stand for zero, and a high first digit needs a zero in
front. -/
def ofDigits : Bytes → Bytes
  | [] => [0]
  | b :: rest => if 0x80 ≤ b then 0 :: b :: rest else b :: rest

/-- **A minimal integer is determined by its digits.** -/
theorem IsMinimal.eq_ofDigits {int : Bytes} (h : IsMinimal int) :
    int = ofDigits (int.dropWhile (· == 0)) := by
  match int, h with
  | [b], h =>
    rcases Decidable.em (b = 0) with rfl | hb
    · rfl
    · have hlow : ¬ 0x80 ≤ b := UInt8.not_le.2 h
      simp [hb, ofDigits, hlow]
  | b :: b' :: rest, ⟨h, hzero⟩ =>
    rcases Decidable.em (b = 0) with rfl | hb
    · -- the zero in front is there for the high octet behind it only
      have hhigh := hzero rfl
      have hb' : b' ≠ 0 := by
        rintro rfl
        exact absurd hhigh (by decide)
      simp [hb', ofDigits, hhigh]
    · have hlow : ¬ 0x80 ≤ b := UInt8.not_le.2 h
      simp [hb, ofDigits, hlow]

theorem ofDigits_cons (b : UInt8) (rest : Bytes) :
    ofDigits (b :: rest) = if 0x80 ≤ b then 0 :: b :: rest else b :: rest := rfl

theorem isMinimal_ofDigits {digits : Bytes} (h : digits.head? ≠ some 0) :
    IsMinimal (ofDigits digits) := by
  cases digits with
  | nil => exact show (0 : UInt8) < 0x80 by decide
  | cons b rest =>
    rw [ofDigits_cons]
    split
    · next hhigh => exact And.intro (by decide) fun _ => hhigh
    · next hlow =>
      have hlow := UInt8.not_le.1 hlow
      cases rest with
      | nil => exact hlow
      | cons b' rest => exact ⟨hlow, fun h0 => absurd (congrArg some h0) h⟩

theorem dropWhile_ofDigits {digits : Bytes} (h : digits.head? ≠ some 0) :
    (ofDigits digits).dropWhile (· == 0) = digits := by
  cases digits with
  | nil => rfl
  | cons b rest =>
    rw [ofDigits_cons]
    split
    · rw [dropWhile_zero_cons, dropWhile_zero_eq_self h]
    · exact dropWhile_zero_eq_self h

theorem length_ofDigits_le (digits : Bytes) : (ofDigits digits).length ≤ digits.length + 1 := by
  cases digits with
  | nil => exact Nat.le_refl 1
  | cons b rest =>
    rw [ofDigits_cons]
    split
    · exact Nat.le_refl _
    · exact Nat.le_succ _

/-- The digits of a number: its octets without leading zeros. -/
def digits (v : BitVec 256) : Bytes :=
  (bigEndian 32 v.toNat).toList.dropWhile (· == 0)

theorem derInteger_eq (v : BitVec 256) : derInteger v = ofDigits (digits v) := by
  unfold derInteger ofDigits digits
  rfl

theorem head?_digits (v : BitVec 256) : (digits v).head? ≠ some 0 :=
  head?_dropWhile_zero _

theorem length_digits_le (v : BitVec 256) : (digits v).length ≤ 32 := by
  have h : (digits v).length ≤ (bigEndian 32 v.toNat).toList.length :=
    (List.dropWhile_sublist _).length_le
  rwa [(bigEndian 32 v.toNat).length_toList] at h

theorem ofBigEndian_digits (v : BitVec 256) : ofBigEndian (digits v) = v.toNat := by
  have hv : v.toNat < capacity 32 := v.isLt
  rw [digits, ofBigEndian_dropWhile, ofBigEndian_bigEndian_of_lt hv]

/-- Digits that 32 octets hold are those of their number. -/
theorem digits_ofBigEndian {bs : Bytes} (hl : bs.length ≤ 32) (h : bs.head? ≠ some 0) :
    digits (BitVec.ofNat 256 (ofBigEndian bs)) = bs := by
  have hlt : ofBigEndian bs < capacity 32 :=
    Nat.lt_of_lt_of_le (ofBigEndian_lt bs) (capacity_le_of_le hl)
  have hv : (BitVec.ofNat 256 (ofBigEndian bs)).toNat = ofBigEndian bs :=
    (BitVec.toNat_ofNat _ _).trans (Nat.mod_eq_of_lt hlt)
  rw [digits, hv, bigEndian_ofBigEndian_of_le hl,
    dropWhile_zero_replicate_append, dropWhile_zero_eq_self h]

theorem isMinimal_derInteger (v : BitVec 256) : IsMinimal (derInteger v) :=
  derInteger_eq v ▸ isMinimal_ofDigits (head?_digits v)

theorem length_derInteger_le (v : BitVec 256) : (derInteger v).length ≤ 33 := by
  have h := length_ofDigits_le (digits v)
  have h' := length_digits_le v
  rw [derInteger_eq]
  omega

theorem ofBigEndian_derInteger (v : BitVec 256) : ofBigEndian (derInteger v) = v.toNat := by
  rw [derInteger_eq, ← ofBigEndian_dropWhile, dropWhile_ofDigits (head?_digits v),
    ofBigEndian_digits]

/-- **A number below `2 ^ 256` has one minimal integer.** -/
theorem IsMinimal.eq_derInteger_iff {int : Bytes} (h : IsMinimal int) {v : BitVec 256} :
    int = derInteger v ↔ ofBigEndian int = v.toNat := by
  constructor
  · rintro rfl
    exact ofBigEndian_derInteger v
  · intro hv
    have hhead := head?_dropWhile_zero int
    have hvalue : ofBigEndian (int.dropWhile (· == 0)) = v.toNat :=
      (ofBigEndian_dropWhile int).trans hv
    have hl : (int.dropWhile (· == 0)).length ≤ 32 :=
      length_le_of_ofBigEndian_lt hhead (hvalue ▸ v.isLt)
    have hdigits := digits_ofBigEndian hl hhead
    rw [hvalue, BitVec.ofNat_toNat, BitVec.setWidth_eq] at hdigits
    rw [derInteger_eq, hdigits]
    exact h.eq_ofDigits

/-- **Reading a minimal integer** gives the number that it is written for. -/
theorem derNumber?_eq_some_iff {int : Bytes} (h : IsMinimal int) {v : BitVec 256} :
    derNumber? int = some v ↔ int = derInteger v := by
  have hhead := head?_dropWhile_zero int
  rw [derInteger_eq]
  unfold derNumber?
  constructor
  · intro hv
    simp only at hv
    split at hv
    · next hl =>
      cases hv
      rw [digits_ofBigEndian hl hhead]
      exact h.eq_ofDigits
    · cases hv
  · rintro rfl
    simp only [dropWhile_ofDigits (head?_digits v), length_digits_le v, if_true,
      ofBigEndian_digits, BitVec.ofNat_toNat, BitVec.setWidth_eq]

/-! ### The layout -/

theorem getElem?_append_add (pre bs : Bytes) (i : Nat) :
    (pre ++ bs)[pre.length + i]? = bs[i]? := by
  rw [List.getElem?_append_right (Nat.le_add_right _ _), Nat.add_sub_cancel_left]

/-- The check of one integer looks at that integer only. -/
theorem minimalAt?_append (pre int post : Bytes) :
    minimalAt? (pre ++ (int ++ post)) pre.length int.length = some (decide (IsMinimal int)) := by
  rw [minimalAt?]
  match int with
  | [] => rfl
  | [b] =>
    by_cases hb : 0x80 ≤ b
    · have hlow : ¬b < 0x80 := UInt8.not_lt.2 hb
      simp [IsMinimal, hb, hlow]
    · have hlow : b < 0x80 := UInt8.not_le.1 hb
      simp [IsMinimal, hb, hlow]
  | b :: b' :: rest =>
    by_cases hb : 0x80 ≤ b
    · have hlow : ¬b < 0x80 := UInt8.not_lt.2 hb
      simp [IsMinimal, hb, hlow]
    · have hlow : b < 0x80 := UInt8.not_le.1 hb
      by_cases hzero : b = 0
      · simp [IsMinimal, hzero]
      · simp [IsMinimal, hb, hlow, hzero]

theorem IsMinimal.length_pos {int : Bytes} (h : IsMinimal int) : 0 < int.length :=
  match int, h with
  | _ :: _, _ => Nat.succ_pos _

/-- A check that can only refuse. -/
theorem ite_refuse_eq {p : Prop} [Decidable p] {check : Option Bool} :
    (if p then pure false else check) = some true ↔ ¬p ∧ check = some true := by
  by_cases hp : p
  · simp [hp]
  · simp [hp]

/-- **The layout check on two integers in their places**: it comes down to the tags, the lengths and
the two integers. -/
theorem strictDer?_layout {a t c d e f : UInt8} {r s : Bytes} (hd : d.toNat = r.length) :
    strictDer? (a :: t :: c :: d :: (r ++ e :: f :: s)) = some true ↔
      (r.length + s.length + 6 ≤ 72 ∧ a = 0x30 ∧ t.toNat = r.length + s.length + 4 ∧ c = 2 ∧
        e = 2 ∧ f.toNat = s.length) ∧ IsMinimal r ∧ IsMinimal s := by
  have hlen : (a :: t :: c :: d :: (r ++ e :: f :: s)).length = r.length + s.length + 6 := by
    simp only [List.length_cons, List.length_append]
    omega
  have hr : minimalAt? (a :: t :: c :: d :: (r ++ e :: f :: s)) 4 r.length =
      some (decide (IsMinimal r)) := minimalAt?_append [a, t, c, d] r (e :: f :: s)
  -- the second integer stands behind the first one and another tag and length
  have hs : minimalAt? (a :: t :: c :: d :: (r ++ e :: f :: s)) (r.length + 6) s.length =
      some (decide (IsMinimal s)) := by
    simpa using minimalAt?_append (a :: t :: c :: d :: (r ++ [e, f])) s []
  have he : (r ++ e :: f :: s)[r.length]? = some e := getElem?_append_add r (e :: f :: s) 0
  have hf : (a :: t :: c :: d :: (r ++ e :: f :: s))[5 + r.length]? = some f := by
    simp [Nat.add_comm 5]
  rw [strictDer?]
  simp only [hlen, hf, he, hr, hd, List.getElem?_cons_zero, List.getElem?_cons_succ,
    Option.bind_eq_bind, Option.bind_some, ite_refuse_eq]
  constructor
  · rintro ⟨hshort, ha, ht, -, hfs, hc, hrm, he, hsm⟩
    obtain hfs : f.toNat = s.length := by omega
    rw [hfs, hs] at hsm
    exact ⟨⟨by omega, by simpa using ha, by omega, by simpa using hc, by simpa using he, hfs⟩,
      by simpa using hrm, by simpa using hsm⟩
  · rintro ⟨⟨hlong, rfl, ht, rfl, rfl, hfs⟩, hrm, hsm⟩
    have hr0 := hrm.length_pos
    have hs0 := hsm.length_pos
    refine ⟨by omega, by simp, by omega, by omega, by omega, by simp, by simpa using hrm, by simp,
      ?_⟩
    rw [hfs, hs, decide_eq_true hsm]

/-- **Whatever passes the layout check** has two integers in their places. -/
theorem exists_layout {bs : Bytes} (h : strictDer? bs = some true) :
    ∃ a t c d r e f s, bs = a :: t :: c :: d :: (r ++ e :: f :: s) ∧ d.toNat = r.length := by
  rw [strictDer?] at h
  simp only [ite_refuse_eq, Option.bind_eq_bind, Option.bind_eq_some_iff] at h
  obtain ⟨hshort, _, -, -, _, -, -, d, hd, hplace, -⟩ := h
  obtain ⟨a, t, c, rest, rfl⟩ : ∃ a t c rest, bs = a :: t :: c :: d :: rest := by
    match bs, hd with
    | a :: t :: c :: d' :: rest, hd => exact ⟨a, t, c, rest, by simpa using hd⟩
  simp only [List.length_cons] at hshort hplace
  -- the check looked at the length behind the first integer, so two more octets are there
  obtain ⟨e, f, s, hs⟩ : ∃ e f s, rest.drop d.toNat = e :: f :: s := by
    have hl : 2 ≤ (rest.drop d.toNat).length := by
      rw [List.length_drop]
      omega
    match rest.drop d.toNat, hl with
    | e :: f :: s, _ => exact ⟨e, f, s, rfl⟩
  refine ⟨a, t, c, d, rest.take d.toNat, e, f, s, ?_, ?_⟩
  · rw [← hs, List.take_append_drop]
  · rw [List.length_take]
    omega

/-! ### Signatures -/

/-- A part of a list is found in its range. -/
theorem range?_append (pre part post : Bytes) :
    range? (pre ++ (part ++ post)) pre.length part.length = some part := by
  have hl : pre.length + part.length ≤ (pre ++ (part ++ post)).length := by
    simp only [List.length_append]
    omega
  rw [range?, if_pos hl, List.drop_left, List.take_left]

theorem toDer_eq (sig : Signature) :
    sig.toDer = 0x30 :: UInt8.ofNat ((derInteger sig.r).length + (derInteger sig.s).length + 4) ::
      2 :: UInt8.ofNat (derInteger sig.r).length ::
        (derInteger sig.r ++ 2 :: UInt8.ofNat (derInteger sig.s).length :: derInteger sig.s) := by
  have hl : (derTagged 2 (derInteger sig.r) ++ derTagged 2 (derInteger sig.s)).length =
      (derInteger sig.r).length + (derInteger sig.s).length + 4 := by
    simp only [derTagged, List.length_append, List.length_cons]
    omega
  rw [toDer, derTagged, hl]
  rfl

theorem length_toDer_le (sig : Signature) : sig.toDer.length ≤ 72 := by
  have hr := length_derInteger_le sig.r
  have hs := length_derInteger_le sig.s
  simp only [toDer_eq, List.length_cons, List.length_append]
  omega

theorem toNat_ofNat_of_lt {n : Nat} (h : n < 256) : (UInt8.ofNat n).toNat = n :=
  (UInt8.toNat_ofNat').trans (Nat.mod_eq_of_lt h)

/-- **What is written is strict.** -/
theorem strictDer?_toDer (sig : Signature) : strictDer? sig.toDer = some true := by
  have hr := length_derInteger_le sig.r
  have hs := length_derInteger_le sig.s
  rw [toDer_eq, strictDer?_layout (toNat_ofNat_of_lt (by omega))]
  exact ⟨⟨by omega, rfl, toNat_ofNat_of_lt (by omega), rfl, rfl, toNat_ofNat_of_lt (by omega)⟩,
    isMinimal_derInteger _, isMinimal_derInteger _⟩

/-- Reading octets that have the layout reads its two integers. -/
theorem ofDer?_layout {a t c d e f : UInt8} {r s : Bytes} (hd : d.toNat = r.length)
    (h : strictDer? (a :: t :: c :: d :: (r ++ e :: f :: s)) = some true) {sig : Signature} :
    ofDer? (a :: t :: c :: d :: (r ++ e :: f :: s)) = some sig ↔
      derNumber? r = some sig.r ∧ derNumber? s = some sig.s := by
  obtain ⟨⟨-, -, -, -, -, hf⟩, -⟩ := (strictDer?_layout hd).1 h
  have hplace : (a :: t :: c :: d :: (r ++ e :: f :: s))[5 + r.length]? = some f := by
    simp [Nat.add_comm 5]
  have hr : range? (a :: t :: c :: d :: (r ++ e :: f :: s)) 4 r.length = some r := by
    exact range?_append [a, t, c, d] r (e :: f :: s)
  have hs : range? (a :: t :: c :: d :: (r ++ e :: f :: s)) (6 + r.length) s.length = some s := by
    simpa [Nat.add_comm 6] using range?_append (a :: t :: c :: d :: (r ++ [e, f])) s []
  unfold ofDer? inspectDer
  simp only [h, hplace, hr, hs, hd, hf, List.getElem?_cons_zero, List.getElem?_cons_succ,
    Option.bind_eq_bind, Option.bind_some, if_true, Option.pure_def, Option.join_some,
    Option.bind_eq_some_iff, Option.some.injEq]
  constructor
  · rintro ⟨_, hr, _, hs, rfl⟩
    exact ⟨hr, hs⟩
  · rintro ⟨hr, hs⟩
    exact ⟨_, hr, _, hs, rfl⟩

theorem strictDer?_of_ofDer? {bs : Bytes} {sig : Signature} (h : ofDer? bs = some sig) :
    strictDer? bs = some true := by
  unfold ofDer? inspectDer at h
  match hs : strictDer? bs, h with
  | some true, _ => rfl
  | some false, h => simp at h
  | none, h => simp at h

/-- **Strict encodings are read back, and nothing else is.** -/
theorem ofDer?_eq_some_iff {bs : Bytes} {sig : Signature} :
    ofDer? bs = some sig ↔ bs = sig.toDer := by
  constructor
  · intro h
    -- the layout gives two minimal integers, and each of them has one way to be written
    have hstrict := strictDer?_of_ofDer? h
    obtain ⟨a, t, c, d, r, e, f, s, rfl, hd⟩ := exists_layout hstrict
    obtain ⟨⟨-, ha, ht, hc, he, hf⟩, hrm, hsm⟩ := (strictDer?_layout hd).1 hstrict
    obtain ⟨hr, hs⟩ := (ofDer?_layout hd hstrict).1 h
    obtain rfl := (derNumber?_eq_some_iff hrm).1 hr
    obtain rfl := (derNumber?_eq_some_iff hsm).1 hs
    rw [toDer_eq, ← ht, ← hd, ← hf, ha, hc, he]
    simp only [UInt8.ofNat_toNat]
  · rintro rfl
    have hstrict := strictDer?_toDer sig
    have hr := length_derInteger_le sig.r
    rw [toDer_eq] at hstrict ⊢
    rw [ofDer?_layout (toNat_ofNat_of_lt (by omega)) hstrict]
    exact ⟨(derNumber?_eq_some_iff (isMinimal_derInteger _)).2 rfl,
      (derNumber?_eq_some_iff (isMinimal_derInteger _)).2 rfl⟩

/-! ### Witness items -/

/-- **Witness items are read back**, and no other octets are read as a signature. -/
theorem ofItem?_eq_some_iff {item : Bytes} {sig : Signature} :
    ofItem? item = some sig ↔ item = sig.toItem := by
  unfold ofItem? toItem
  constructor
  · intro h
    split at h
    · next hlast =>
      obtain ⟨der, rfl⟩ := List.getLast?_eq_some_iff.1 hlast
      rw [List.dropLast_concat] at h
      rw [ofDer?_eq_some_iff.1 h]
    · cases h
  · rintro rfl
    simp only [List.getLast?_concat, if_true, List.dropLast_concat, ofDer?_eq_some_iff]

@[simp]
theorem ofItem?_toItem (sig : Signature) : ofItem? sig.toItem = some sig :=
  ofItem?_eq_some_iff.2 rfl

/-- An empty item holds a place and no signature. -/
theorem ofItem?_nil : ofItem? [] = none := rfl

theorem length_toItem_le (sig : Signature) : sig.toItem.length ≤ 73 := by
  rw [toItem, List.length_append]
  exact Nat.succ_le_succ (length_toDer_le sig)

/-! ### One encoding for each signature -/

/-- The encodings of a signature are those of its two numbers as minimal integers. -/
theorem eq_toDer_iff {bs : Bytes} {sig : Signature} :
    bs = sig.toDer ↔ ∃ r s : Bytes, (IsMinimal r ∧ ofBigEndian r = sig.r.toNat) ∧
      (IsMinimal s ∧ ofBigEndian s = sig.s.toNat) ∧
        bs = derTagged 0x30 (derTagged 2 r ++ derTagged 2 s) := by
  constructor
  · rintro rfl
    exact ⟨derInteger sig.r, derInteger sig.s,
      ⟨isMinimal_derInteger _, ofBigEndian_derInteger _⟩,
      ⟨isMinimal_derInteger _, ofBigEndian_derInteger _⟩, rfl⟩
  · rintro ⟨r, s, ⟨hrm, hr⟩, ⟨hsm, hs⟩, rfl⟩
    rw [hrm.eq_derInteger_iff.2 hr, hsm.eq_derInteger_iff.2 hs, toDer]

/-- **Signatures and their encodings correspond one to one.** Every pair of numbers of 256 bits,
zero and numbers above the order included, is written in at most 72 octets and read back, with and
without the octet for the whole transaction; whatever is read is what would be written; and what is
read without that octet is exactly a sequence of two positive integers in the fewest octets, each
below `2 ^ 256`. -/
theorem toDer_toItem_inverse :
    (∀ sig : Signature, ofDer? sig.toDer = some sig ∧ sig.toDer.length ≤ 72 ∧
        ofItem? sig.toItem = some sig) ∧
      (∀ (bs : Bytes) (sig : Signature), ofDer? bs = some sig → sig.toDer = bs) ∧
      (∀ (item : Bytes) (sig : Signature), ofItem? item = some sig → sig.toItem = item) ∧
      ∀ (bs : Bytes) (sig : Signature), ofDer? bs = some sig ↔
        ∃ r s : Bytes, (IsMinimal r ∧ ofBigEndian r = sig.r.toNat) ∧
          (IsMinimal s ∧ ofBigEndian s = sig.s.toNat) ∧
            bs = derTagged 0x30 (derTagged 2 r ++ derTagged 2 s) := by
  refine ⟨fun sig => ⟨?_, length_toDer_le sig, ?_⟩, fun bs sig h => ?_, fun item sig h => ?_,
    fun bs sig => ?_⟩
  · exact ofDer?_eq_some_iff.2 rfl
  · exact ofItem?_eq_some_iff.2 rfl
  · exact (ofDer?_eq_some_iff.1 h).symm
  · exact (ofItem?_eq_some_iff.1 h).symm
  · exact ofDer?_eq_some_iff.trans eq_toDer_iff

/-- One number is zero, which is written as a zero octet, and the other one needs a
zero octet in front of its high bit. -/
theorem toDer_toItem_inverse_highBit :
    let sig : Signature := { r := 0, s := 0x80 }
    let der : Bytes := [0x30, 7, 2, 1, 0, 2, 2, 0, 0x80]
    ofDer? der = some sig ∧ sig.toDer = der ∧ ofItem? (der ++ [1]) = some sig ∧
      sig.toItem = der ++ [1] := by
  intro sig der
  have hder : ofDer? der = some sig := by decide
  have hitem : ofItem? (der ++ [1]) = some sig := by decide
  obtain ⟨-, hread, hreadItem, -⟩ := toDer_toItem_inverse
  exact ⟨hder, hread _ sig hder, hitem, hreadItem _ sig hitem⟩

end Signature

end WitnessSigning
