import WitnessSigning.Proofs.Text.Bech32
import WitnessSigning.Proofs.Text.Distance

/-!
# Typing errors in addresses

Two addresses of one length under the same human-readable part agree in it and in the
separator, and hold values that leave the same remainder behind it. There are 39 or 59 of
them, as a program has 20 or 32 octets, so they are equal or differ at more than four
places (`WitnessSigning.Bech32.eq_of_remainder_eq`). Hence what an address turns into by up
to four typing errors is not an address any more: whatever else is typed, be it another
letter or something that no symbol is.
-/

namespace WitnessSigning.Bech32

open Text (lower)

variable {hrp text text' : Text} {program program' : Bytes}

/-- **The places where two texts differ**, whatever case their letters are in. -/
def typos (text text' : Text) : Finset Nat :=
  {i ∈ Finset.range text.length | (text.map lower)[i]? ≠ (text'.map lower)[i]?}

theorem typos_eq_empty (h : text.map lower = text'.map lower) : typos text text' = ∅ :=
  Finset.filter_eq_empty_iff.2 fun i _ hne => hne (by rw [h])

/-! ### Symbols and values -/

theorem getElem?_encode (hrp : Text) (program : Bytes) (p : Nat) :
    (encode hrp program)[hrp.length + 1 + p]? = ((addressValues hrp program)[p]?).map symbol := by
  rw [encode_eq, List.getElem?_append_right (by omega), Nat.add_assoc, Nat.add_sub_cancel_left,
    Nat.add_comm, List.getElem?_cons_succ, List.getElem?_map]

/-- **Equal symbols** at a place behind the separator stand for equal values. -/
theorem getElem?_addressValues_eq {p : Nat}
    (h : (encode hrp program)[hrp.length + 1 + p]? = (encode hrp program')[hrp.length + 1 + p]?) :
    (addressValues hrp program)[p]? = (addressValues hrp program')[p]? := by
  rw [getElem?_encode, getElem?_encode] at h
  cases hv : (addressValues hrp program)[p]? with
  | none =>
    rw [hv, Option.map_none, eq_comm, Option.map_eq_none_iff] at h
    rw [h]
  | some v =>
    rw [hv, Option.map_some, eq_comm, Option.map_eq_some_iff] at h
    obtain ⟨w, hw, he⟩ := h
    rw [hw, symbol_injective (lt_of_mem_addressValues (List.mem_of_getElem? hw))
      (lt_of_mem_addressValues (List.mem_of_getElem? hv)) he]

open Finset in
/-- **No more values differ** than there are typing errors. -/
theorem card_le_card_typos (htext : text.map lower = encode hrp program)
    (htext' : text'.map lower = encode hrp program') :
    #{p ∈ range (addressValues hrp program).length |
        (addressValues hrp program)[p]? ≠ (addressValues hrp program')[p]?} ≤
      #(typos text text') := by
  refine card_le_card_of_injOn (fun p => hrp.length + 1 + p) ?_
    fun p _ p' _ he => Nat.add_left_cancel he
  intro p hp
  obtain ⟨hp, hne⟩ := mem_filter.1 hp
  have hlength := length_encode hrp program
  rw [← htext, List.length_map] at hlength
  have hlt : hrp.length + 1 + p < text.length :=
    hlength ▸ Nat.add_lt_add_left (mem_range.1 hp) (hrp.length + 1)
  refine mem_filter.2 ⟨mem_range.2 hlt, fun he => hne (getElem?_addressValues_eq ?_)⟩
  rwa [htext, htext'] at he

/-! ### Addresses -/

/-- An address of a program that can be read has 59 values at most. -/
theorem length_addressValues_le (hsize : program.length = 20 ∨ program.length = 32) :
    (addressValues hrp program).length ≤ 59 := by
  rw [length_addressValues]
  omega

/-- **Two addresses of one length** that differ at four places at most are the
same, up to the case of their letters. -/
theorem map_lower_eq_of_typos (h : decode? hrp text = some program)
    (h' : decode? hrp text' = some program') (hlength : text'.length = text.length)
    (hfew : (typos text text').card ≤ 4) : text.map lower = text'.map lower := by
  have hhrp := ne_nil_of_decode? h
  obtain ⟨-, htext, hsize⟩ := (decode?_eq_some_iff hhrp).1 h
  obtain ⟨-, htext', hsize'⟩ := (decode?_eq_some_iff hhrp).1 h'
  have hsame : (addressValues hrp program).length = (addressValues hrp program').length := by
    refine Nat.add_left_cancel (n := hrp.length + 1) ?_
    rw [← length_encode, ← length_encode, ← htext, ← htext', List.length_map, List.length_map,
      hlength]
  have hremainder : ∀ {program : Bytes}, (program.length = 20 ∨ program.length = 32) →
      remainder (expand hrp ++ addressValues hrp program) = 1 := fun {program} hsize =>
    ((readValues_iff (fun _ => lt_of_mem_addressValues)
      (checksumLength_le_addressValues hrp program)).2 ⟨rfl, hsize⟩).1
  have hvalues : addressValues hrp program = addressValues hrp program' :=
    eq_of_remainder_eq (fun _ => lt_of_mem_addressValues) (fun _ => lt_of_mem_addressValues) hsame
      (length_addressValues_le hsize) ((card_le_card_typos htext htext').trans hfew)
      ((hremainder hsize).trans (hremainder hsize').symm)
  rw [htext, htext', encode_eq, encode_eq, hvalues]

/-- **Up to four typing errors are detected.** What differs from an address at one to four
places, in more than the case of letters, is not an address for the same human-readable part.
This holds wherever the places are, in the symbols behind the last separator or in front of them,
and whatever stands there instead. -/
theorem decode?_eq_none_of_typos (h : decode? hrp text = some program)
    (hlength : text'.length = text.length) (hsome : 1 ≤ (typos text text').card)
    (hfew : (typos text text').card ≤ 4) : decode? hrp text' = none := by
  refine Option.eq_none_iff_forall_ne_some.2 fun program' h' => ?_
  rw [typos_eq_empty (map_lower_eq_of_typos h h' hlength hfew)] at hsome
  exact absurd hsome (by decide)

/-- Two symbols of the checksum exchanged, and another two: the address of the generator is not
read any more, although the rest of it is only written in upper case. -/
theorem decode?_eq_none_of_typos_exchanged :
    let hrp := Text.ofString "bc"
    let text := Text.ofString "bc1qw508d6qejxtdg4y5r3zarvary0c5xw7kv8f3t4"
    let text' := Text.ofString "BC1QW508D6QEJXTDG4Y5R3ZARVARY0C5XW7KV4T3F8"
    (decode? hrp text).isSome ∧ text'.length = text.length ∧ (typos text text').card = 4 ∧
      decode? hrp text' = none := by
  intro hrp text text'
  have hread : (decode? hrp text).isSome := by decide +kernel
  obtain ⟨program, h⟩ := Option.isSome_iff_exists.1 hread
  have hlength : text'.length = text.length := by decide +kernel
  have hcard : (typos text text').card = 4 := by decide +kernel
  exact ⟨hread, hlength, hcard, decode?_eq_none_of_typos h hlength (by rw [hcard]; decide) hcard.le⟩

end WitnessSigning.Bech32
