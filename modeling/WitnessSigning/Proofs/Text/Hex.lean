import WitnessSigning.Text.Hex

/-!
# Hexadecimal is written in one case and read in either

A digit is read as the value that its lower case form is written for
(`WitnessSigning.Hex.value?_eq_some_iff`), and two digits as the one octet that they are written
for. So a text is read exactly if its lower case form is written for some octets, and it is read
as these (`WitnessSigning.Hex.decode_eq_ok_iff`). Whatever is made of the octets then has as many
texts as there are ways to mix the two cases (`WitnessSigning.Hex.decode_bind_eq_ok_iff`).
-/

namespace WitnessSigning.Hex

open Text (lower toNat_lower)

variable {bs : Bytes} {text : Text}

/-! ### Digits -/

theorem toNat_digit (v : Nat) : (digit v).toNat = (if v < 10 then 48 + v else 87 + v) % 256 := by
  rw [digit, UInt8.toNat_ofNat']

theorem lower_digit {v : Nat} (hv : v < 16) : lower (digit v) = digit v := by
  rw [← UInt8.toNat_inj, toNat_lower, toNat_digit]
  grind

/-- **The value of a digit** is the one that its lower case form is written for. -/
theorem value?_eq_some_iff {c : UInt8} {v : Nat} :
    value? c = some v ↔ v < 16 ∧ lower c = digit v := by
  rw [← UInt8.toNat_inj, toNat_lower, toNat_digit, value?]
  grind

theorem value_eq_ok_iff {c : UInt8} {v : Nat} : value c = .ok v ↔ v < 16 ∧ lower c = digit v := by
  rw [← value?_eq_some_iff, value]
  cases value? c with
  | none => simp
  | some v' => simp

/-- **Two digits stand for one octet**: the one that they are written for. -/
theorem exists_values_iff {hi lo b : UInt8} :
    (∃ h, value hi = .ok h ∧ ∃ l, value lo = .ok l ∧ UInt8.ofNat (16 * h + l) = b) ↔
      lower hi = digit (b.toNat / 16) ∧ lower lo = digit (b.toNat % 16) := by
  simp only [value_eq_ok_iff]
  constructor
  · rintro ⟨h, ⟨hh, hhi⟩, l, ⟨hl, hlo⟩, rfl⟩
    have hhigh : (16 * h + l) / 16 = h := by omega
    have hlow : (16 * h + l) % 16 = l := by omega
    rw [UInt8.toNat_ofNat_of_lt' (by simp only [UInt8.size]; omega), hhigh, hlow]
    exact ⟨hhi, hlo⟩
  · rintro ⟨hhi, hlo⟩
    have hb := b.toNat_lt
    refine ⟨_, ⟨by omega, hhi⟩, _, ⟨by omega, hlo⟩, ?_⟩
    rw [Nat.div_add_mod, UInt8.ofNat_toNat]

/-! ### Texts -/

theorem encode_cons (b : UInt8) (bs : Bytes) :
    encode (b :: bs) = digit (b.toNat / 16) :: digit (b.toNat % 16) :: encode bs := rfl

theorem length_encode (bs : Bytes) : (encode bs).length = 2 * bs.length := by
  induction bs with
  | nil => rfl
  | cons b bs ih =>
    rw [encode_cons, List.length_cons, List.length_cons, ih, List.length_cons]
    omega

/-- Reading pair by pair adds the octets that the rest of the text is written for. -/
theorem decodePairs_eq_ok_iff {n : Nat} {done : Bytes} (hlength : text.length = 2 * n) :
    decodePairs done text = .ok bs ↔
      ∃ more, bs = done.reverse ++ more ∧ text.map lower = encode more := by
  induction n generalizing done text with
  | zero =>
    obtain rfl := List.length_eq_zero_iff.1 hlength
    constructor
    · rintro ⟨⟩
      exact ⟨[], (List.append_nil _).symm, rfl⟩
    · rintro ⟨more, rfl, hmore⟩
      cases more with
      | nil => exact congrArg Except.ok (List.append_nil _).symm
      | cons b more => cases hmore
  | succ n ih =>
    match text, hlength with
    | hi :: lo :: rest, hlength =>
      have hrest : rest.length = 2 * n := by
        rw [List.length_cons, List.length_cons] at hlength
        omega
      rw [decodePairs]
      simp only [Error.bind_eq_ok, ih hrest, List.map_cons]
      constructor
      · rintro ⟨h, hh, l, hl, more, rfl, hmore⟩
        obtain ⟨hhi, hlo⟩ := exists_values_iff.1 ⟨h, hh, l, hl, rfl⟩
        refine ⟨UInt8.ofNat (16 * h + l) :: more, by simp, ?_⟩
        rw [encode_cons, hhi, hlo, hmore]
      · rintro ⟨more, rfl, hmore⟩
        cases more with
        | nil => cases hmore
        | cons b more =>
          rw [encode_cons, List.cons.injEq, List.cons.injEq, ← and_assoc] at hmore
          obtain ⟨h, hh, l, hl, rfl⟩ := exists_values_iff.2 hmore.1
          exact ⟨h, hh, l, hl, more, by simp, hmore.2⟩

/-- **A text is read** as the octets that its lower case form is written for. -/
theorem decode_eq_ok_iff : decode text = .ok bs ↔ text.map lower = encode bs := by
  rw [decode]
  split
  · next heven =>
    rw [decodePairs_eq_ok_iff (Nat.mul_div_cancel' (Nat.dvd_of_mod_eq_zero heven)).symm]
    simp
  · next hodd =>
    refine iff_of_false (nomatch ·) fun h => hodd ?_
    have hlength := congrArg List.length h
    rw [List.length_map, length_encode] at hlength
    omega

/-- What is written is in lower case. -/
theorem map_lower_encode (bs : Bytes) : (encode bs).map lower = encode bs := by
  induction bs with
  | nil => rfl
  | cons b bs ih =>
    have hb := b.toNat_lt
    rw [encode_cons, List.map_cons, List.map_cons, ih, lower_digit (by omega),
      lower_digit (by omega)]

/-- **What is read from octets** that are written for it only is read from the texts whose
lower case form is written for these. -/
theorem decode_bind_eq_ok_iff {α : Type} {parse : Bytes → Except Error α} {a : α}
    (h : ∀ bs', parse bs' = .ok a ↔ bs = bs') :
    (decode text >>= parse) = .ok a ↔ text.map lower = encode bs := by
  simp only [Error.bind_eq_ok, decode_eq_ok_iff, h, exists_eq_right']

end WitnessSigning.Hex
