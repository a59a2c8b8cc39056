import WitnessSigning.Proofs.Text.Alphabet
import WitnessSigning.Proofs.Text.Radix

/-!
# Base58Check is a bijection

Octets and the Base58 text written for them are the digits of the same number, in base 256 and
in base 58, behind the same number of zeros (`WitnessSigning.Base58.encodePlain_eq`). Reading
a text finds the same number and the same zeros
(`WitnessSigning.Base58.decodePlain_eq_ok_iff`), so it accepts what writing produces and
nothing else, whatever the length and however many zeros there are in front. The checksum
stands behind the payload before anything is written, and is looked for when all is read.
-/

namespace WitnessSigning.Base58

open Radix

/-! ### Octets as digits -/

section Octets

variable {bs : Bytes} {zeros n : Nat}

/-- Octets are the digits of a number behind some zeros. -/
theorem exists_numeral (bs : Bytes) : ∃ zeros n, bs.map UInt8.toNat = numeral 256 zeros n := by
  refine exists_eq_numeral (by decide) fun d hd => ?_
  obtain ⟨b, -, rfl⟩ := List.mem_map.1 hd
  exact b.toNat_lt

theorem map_toNat_map_ofNat (zeros n : Nat) :
    ((numeral 256 zeros n).map UInt8.ofNat).map UInt8.toNat = numeral 256 zeros n := by
  have hid : ∀ d ∈ numeral 256 zeros n, (UInt8.toNat ∘ UInt8.ofNat) d = id d := fun d hd =>
    UInt8.toNat_ofNat_of_lt' (lt_of_mem_numeral (by decide) hd)
  rw [List.map_map, List.map_congr_left hid, List.map_id]

theorem eq_map_ofNat (h : bs.map UInt8.toNat = numeral 256 zeros n) :
    bs = (numeral 256 zeros n).map UInt8.ofNat := by
  have hid : UInt8.ofNat ∘ UInt8.toNat = id := funext fun _ => UInt8.ofNat_toNat
  rw [← h, List.map_map, hid, List.map_id]

end Octets

/-! ### Writing -/

/-- Writing octets is counting with them. -/
theorem foldl_writeOctet_eq (bs : Bytes) :
    bs.foldl writeOctet [] = (bs.map UInt8.toNat).foldl (fun acc d => mulAdd 58 256 d acc) [] := by
  rw [List.foldl_map]
  rfl

/-- **The text of octets** has the digits of their number behind as many zeros. -/
theorem encodePlain_eq {bs : Bytes} {zeros n : Nat} (h : bs.map UInt8.toNat = numeral 256 zeros n) :
    encodePlain bs = (numeral 58 zeros n).map digit := by
  have hdigits : bs.foldl writeOctet [] = Nat.digits 58 n := by
    rw [foldl_writeOctet_eq, foldl_mulAdd_nil (by decide) (by decide), h, value_numeral]
  have hzeros : bs.takeWhile (· == 0) = List.replicate zeros 0 := by
    have hzero : ∀ d < 256, UInt8.ofNat d = 0 ↔ d = 0 := by
      intro d hd
      rw [← UInt8.toNat_inj, UInt8.toNat_ofNat_of_lt' hd]
      rfl
    rw [eq_map_ofNat h, takeWhile_map_numeral (by decide) hzero]
  rw [encodePlain, hdigits, hzeros, numeral, List.map_append, List.map_replicate,
    List.map_replicate]
  rfl

/-! ### Reading -/

/-- **The number of a text** is counted digit by digit, as long as each octet is one. -/
theorem foldlM_readDigit_eq_ok {text : Text} {n : Nat} {octets : List Nat} :
    text.foldlM readDigit (Nat.digits 256 n) = .ok octets ↔
      ∃ vs : List Nat, (∀ v ∈ vs, v < 58) ∧ text = vs.map digit ∧
        octets = Nat.digits 256 (vs.foldl (fun n v => 58 * n + v) n) := by
  induction text generalizing n with
  | nil =>
    constructor
    · intro h
      exact ⟨[], nofun, rfl, (Except.ok.inj h).symm⟩
    · rintro ⟨vs, -, htext, rfl⟩
      obtain rfl := List.map_eq_nil_iff.1 htext.symm
      rfl
  | cons c text ih =>
    have hstep : ∀ {acc acc' : List Nat}, readDigit acc c = .ok acc' ↔
        ∃ v, (v < 58 ∧ c = digit v) ∧ mulAdd 256 58 v acc = acc' := by
      intro acc acc'
      rw [readDigit, Error.bind_eq_ok]
      simp only [value_eq_ok_iff]
      exact exists_congr fun v => and_congr_right fun _ => ⟨Except.ok.inj, congrArg _⟩
    rw [List.foldlM_cons, Error.bind_eq_ok]
    constructor
    · rintro ⟨acc, hacc, hrest⟩
      obtain ⟨v, ⟨hv, rfl⟩, rfl⟩ := hstep.1 hacc
      rw [mulAdd_digits (by decide) (by decide)] at hrest
      obtain ⟨vs, hvs, rfl, rfl⟩ := ih.1 hrest
      exact ⟨v :: vs, List.forall_mem_cons.2 ⟨hv, hvs⟩, rfl, rfl⟩
    · rintro ⟨_ | ⟨v, vs⟩, hvs, htext, rfl⟩
      · cases htext
      · obtain ⟨rfl, rfl⟩ := List.cons.inj htext
        obtain ⟨hv, hvs⟩ := List.forall_mem_cons.1 hvs
        refine ⟨_, hstep.2 ⟨v, ⟨hv, rfl⟩, rfl⟩, ?_⟩
        rw [mulAdd_digits (by decide) (by decide)]
        exact ih.2 ⟨vs, hvs, rfl, rfl⟩

theorem decodePlain_map_digit (zeros n : Nat) :
    decodePlain ((numeral 58 zeros n).map digit) = .ok ((numeral 256 zeros n).map UInt8.ofNat) := by
  have hoctets : ((numeral 58 zeros n).map digit).foldlM readDigit [] = .ok (Nat.digits 256 n) := by
    rw [← Nat.digits_zero 256]
    refine foldlM_readDigit_eq_ok.2 ⟨_, fun v hv => lt_of_mem_numeral (by decide) hv, rfl, ?_⟩
    rw [foldl_eq_value, value_numeral]
  have hzeros := takeWhile_map_numeral (by decide) (fun v => digit_eq_zeroDigit_iff) zeros n
  rw [decodePlain, hoctets, hzeros, List.map_replicate, numeral, List.map_append,
    List.map_replicate]
  rfl

/-- **Reading a text** finds the octets that it is written for. -/
theorem decodePlain_eq_ok_iff {text : Text} {bs : Bytes} :
    decodePlain text = .ok bs ↔ encodePlain bs = text := by
  constructor
  · intro h
    have htext : ∃ zeros n, text = (numeral 58 zeros n).map digit := by
      obtain ⟨octets, hoctets, -⟩ := Error.bind_eq_ok.1 h
      obtain ⟨vs, hvs, rfl, -⟩ := (foldlM_readDigit_eq_ok (n := 0)).1 (by rwa [Nat.digits_zero])
      obtain ⟨zeros, n, rfl⟩ := exists_eq_numeral (by decide) hvs
      exact ⟨zeros, n, rfl⟩
    obtain ⟨zeros, n, rfl⟩ := htext
    rw [decodePlain_map_digit] at h
    cases h
    exact encodePlain_eq (map_toNat_map_ofNat zeros n)
  · rintro rfl
    obtain ⟨zeros, n, h⟩ := exists_numeral bs
    rw [encodePlain_eq h, decodePlain_map_digit, ← eq_map_ofNat h]

/-- A text is refused for an octet that is no digit only. -/
theorem exists_of_foldlM_eq_error {text : Text} {octets : List Nat} {e : Error}
    (h : text.foldlM readDigit octets = .error e) : ∃ c, e = .base58Digit c := by
  induction text generalizing octets with
  | nil => cases h
  | cons c text ih =>
    rw [List.foldlM_cons, Error.bind_eq_error] at h
    rcases h with h | ⟨octets', -, h⟩
    · rcases Error.bind_eq_error.1 h with h | ⟨v, -, h⟩
      · exact ⟨c, value_eq_error h⟩
      · cases h
    · exact ih h

/-! ### With the checksum -/

theorem length_checksum (payload : Bytes) : (checksum payload).length = 4 := by
  rw [checksum, List.length_take, (doubleSha256 payload).length_toList]
  rfl

/-- **A payload is read** from the text that is written for it. -/
theorem decode_eq_ok_iff {text : Text} {payload : Bytes} :
    decode text = .ok payload ↔ encode payload = text := by
  rw [decode, encode, Error.bind_eq_ok]
  simp only [decodePlain_eq_ok_iff]
  constructor
  · rintro ⟨octets, rfl, h⟩
    split at h
    · cases h
    · next hl =>
      split at h
      · next hsum =>
        cases h
        rw [← hsum, List.take_append_drop]
      · cases h
  · rintro rfl
    have hl : (payload ++ checksum payload).length - 4 = payload.length := by
      rw [List.length_append, length_checksum, Nat.add_sub_cancel]
    refine ⟨_, rfl, ?_⟩
    have hlong : ¬(payload ++ checksum payload).length < 4 := by
      rw [List.length_append, length_checksum]
      omega
    simp only [hl, if_neg hlong, List.drop_left, List.take_left, if_true]
    rfl

/-- **Whatever is refused** cannot be read as Base58Check, and nothing else is wrong with it. -/
theorem kind_of_decode_eq_error {text : Text} {e : Error} (h : decode text = .error e) :
    e.kind = .decodeError := by
  rcases Error.bind_eq_error.1 h with h | ⟨octets, -, h⟩
  · rcases Error.bind_eq_error.1 h with h | ⟨_, -, h⟩
    · obtain ⟨c, rfl⟩ := exists_of_foldlM_eq_error h
      rfl
    · cases h
  · split at h
    · cases h
      rfl
    · dsimp only at h
      split at h
      · cases h
      · cases h
        rfl

/-- **Payloads and Base58Check texts correspond one to one.** Every payload is read back from its
text, whatever its length and the zeros in front of it; a text that is read is the one written for
what it is read as; and a text that is written for no payload is refused as undecodable. -/
theorem encode_decode_correspond :
    (∀ payload : Bytes, decode (encode payload) = .ok payload) ∧
      (∀ (text : Text) (payload : Bytes), decode text = .ok payload → encode payload = text) ∧
      ∀ text : Text, (∀ payload : Bytes, encode payload ≠ text) →
        ∃ e, decode text = .error e ∧ e.kind = .decodeError := by
  refine ⟨fun payload => decode_eq_ok_iff.2 rfl, fun text payload => decode_eq_ok_iff.1, ?_⟩
  intro text hno
  cases h : decode text with
  | error e => exact ⟨e, rfl, kind_of_decode_eq_error h⟩
  | ok payload => exact absurd (decode_eq_ok_iff.1 h) (hno payload)

/-- The text of two zeros is read as them and so is what is written for them, and a text of an octet
that is no digit is written for nothing. -/
theorem encode_decode_correspond_zeros :
    let text := Text.ofString "112edB6q"
    let noText := Text.ofString "0"
    decode (encode [0, 0]) = .ok [0, 0] ∧ decode text = .ok [0, 0] ∧ encode [0, 0] = text ∧
      (∀ payload : Bytes, encode payload ≠ noText) ∧
      ∃ e, decode noText = .error e ∧ e.kind = .decodeError := by
  intro text noText
  obtain ⟨hread, hwrite, hrefuse⟩ := encode_decode_correspond
  have htext : decode text = .ok [0, 0] := by decide +kernel
  have hnoText : decode noText = .error (.base58Digit 48) := by decide +kernel
  have hno : ∀ payload : Bytes, encode payload ≠ noText := by
    intro payload h
    have hpayload := hread payload
    rw [h, hnoText] at hpayload
    cases hpayload
  exact ⟨hread [0, 0], htext, hwrite text [0, 0] htext, hno, hrefuse noText hno⟩

end WitnessSigning.Base58
