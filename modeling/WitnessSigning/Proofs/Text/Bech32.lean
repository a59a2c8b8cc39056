import Mathlib.Data.List.TakeWhile
import WitnessSigning.Proofs.Text.Alphabet
import WitnessSigning.Proofs.Text.Checksum

/-!
# Addresses that are read are those that are written

An address splits at its last separator, since no symbol is one
(`WitnessSigning.Bech32.splitLast?_eq_some_iff`), whatever the human-readable part holds. Behind
it the symbols are read to their values, the checksum is the only one that fits the values in
front of it, and regrouping leads back to the program that was grouped. So what is read in lower
case is the address of its program, letter by letter
(`WitnessSigning.Bech32.decode?_eq_some_iff`), and upper case letters are only another way to
write it. What is written is read back as far as it is short enough
(`WitnessSigning.Bech32.decode?_encode`).
-/

namespace WitnessSigning.Bech32

open Regroup
open Text (isLower isUpper lower map_lower_eq_self)

variable {hrp text : Text} {program : Bytes}

/-! ### The separator -/

theorem splitLast?_append {c : UInt8} {front back : Text} (h : c ∉ back) :
    splitLast? c (front ++ c :: back) = some (front, back) := by
  have hback : ∀ b ∈ back.reverse, (b != c) = true := by
    intro b hb
    rw [bne_iff_ne]
    rintro rfl
    exact h (List.mem_reverse.1 hb)
  have htake : ((front ++ c :: back).reverse.takeWhile (· != c)).reverse = back := by
    rw [List.reverse_append, List.reverse_cons, List.append_assoc,
      List.takeWhile_append_of_pos hback, List.singleton_append,
      List.takeWhile_cons_of_neg (by simp), List.append_nil, List.reverse_reverse]
  have hlength : (front ++ c :: back).length - back.length - 1 = front.length := by
    rw [List.length_append, List.length_cons]
    omega
  rw [splitLast?, htake, if_pos (by simp; omega), hlength, List.take_left]

/-- **The last occurrence** of an octet has none of it behind. -/
theorem splitLast?_eq_some_iff {c : UInt8} {front back : Text} :
    splitLast? c text = some (front, back) ↔ text = front ++ c :: back ∧ c ∉ back := by
  constructor
  · intro h
    by_cases hmem : c ∈ text
    · obtain ⟨back', front', hsplit, hnot⟩ := List.eq_append_cons_of_mem (List.mem_reverse.2 hmem)
      have htext : text = front'.reverse ++ c :: back'.reverse := by
        rw [← List.reverse_reverse text, hsplit]
        simp
      have hnot' : c ∉ back'.reverse := fun hc => hnot (List.mem_reverse.1 hc)
      rw [htext, splitLast?_append hnot'] at h
      cases h
      exact ⟨htext, hnot'⟩
    · have hall : ∀ b ∈ text.reverse, (b != c) = true := by
        intro b hb
        rw [bne_iff_ne]
        rintro rfl
        exact hmem (List.mem_reverse.1 hb)
      rw [splitLast?, List.takeWhile_eq_self_iff.2 hall, List.reverse_reverse,
        if_neg (Nat.lt_irrefl _)] at h
      cases h
  · rintro ⟨rfl, h⟩
    exact splitLast?_append h

/-! ### Values -/

/-- **The values of a program** are its version and the groups that its octets fill up to. -/
theorem programValues_eq_iff {groups : Bytes} :
    programValues program = version :: groups ↔ Fills 8 5 program groups := by
  obtain ⟨groups', h⟩ : ∃ groups', Fills 8 5 program groups' :=
    exists_fills (by decide) (by decide) (by decide) fun v _ => v.toNat_lt
  rw [programValues, (regroup?_fill_eq_some_iff (by decide) (by decide) (by decide)).2 h,
    Option.getD_some, List.cons_inj_right]
  exact ⟨fun he => he ▸ h, fun h' => h.right_unique (by decide) h'⟩

theorem lt_of_mem_programValues {v : UInt8} (h : v ∈ programValues program) : v.toNat < 32 := by
  obtain ⟨groups, hgroups⟩ : ∃ groups, programValues program = version :: groups := ⟨_, rfl⟩
  rw [hgroups] at h
  rcases List.mem_cons.1 h with rfl | h
  · decide
  · exact (programValues_eq_iff.1 hgroups).lt_target v h

/-- **A program is found** in the values that are written for it and in front of any six others. -/
theorem program?_eq_some_iff {values last : Bytes} (hlast : last.length = checksumLength) :
    program? (values ++ last) = some program ↔
      values = programValues program ∧ (program.length = 20 ∨ program.length = 32) := by
  have htake : (values ++ last).take ((values ++ last).length - checksumLength) = values := by
    rw [List.length_append, hlast, Nat.add_sub_cancel, List.take_left]
  rw [program?, htake]
  cases values with
  | nil => simp [programValues]
  | cons v groups =>
    dsimp only
    by_cases hv : v = version
    · rw [hv, if_pos rfl, eq_comm (a := version :: groups), programValues_eq_iff,
        ← regroup?_exact_eq_some_iff (by decide) (by decide) (by decide)]
      simp [Option.filter_eq_some_iff]
    · rw [if_neg hv]
      simp [programValues, hv]

/-! ### Addresses -/

/-- What is written behind the separator: the values of the program with their checksum. -/
def addressValues (hrp : Text) (program : Bytes) : Bytes :=
  programValues program ++ checksum hrp (programValues program)

theorem encode_eq (hrp : Text) (program : Bytes) :
    encode hrp program = hrp ++ separator :: (addressValues hrp program).map symbol := rfl

theorem lt_of_mem_addressValues {v : UInt8} (h : v ∈ addressValues hrp program) : v.toNat < 32 :=
  (List.mem_append.1 h).elim lt_of_mem_programValues lt_of_mem_checksum

/-- **The symbols of an address** are read to the values of the program, if the
human-readable part is the given one. -/
theorem readValues_iff {values : Bytes} (hvalues : ∀ v ∈ values, v.toNat < 32)
    (hlength : checksumLength ≤ values.length) :
    remainder (expand hrp ++ values) = 1 ∧ program? values = some program ↔
      values = addressValues hrp program ∧ (program.length = 20 ∨ program.length = 32) := by
  obtain ⟨front, last, rfl, hlast⟩ :
      ∃ front last : Bytes, values = front ++ last ∧ last.length = checksumLength :=
    ⟨values.take (values.length - checksumLength), values.drop (values.length - checksumLength),
      (List.take_append_drop _ _).symm, by rw [List.length_drop]; omega⟩
  have hbits : ∀ v ∈ last, v.toNat < 2 ^ 5 := fun v hv => hvalues v (List.mem_append_right _ hv)
  rw [← List.append_assoc, remainder_eq_one_iff hlast hbits, program?_eq_some_iff hlast,
    addressValues]
  constructor
  · rintro ⟨rfl, rfl, hsize⟩
    exact ⟨rfl, hsize⟩
  · rintro ⟨h, hsize⟩
    obtain ⟨rfl, rfl⟩ := List.append_inj' h (hlast.trans (length_checksum _ _).symm)
    exact ⟨rfl, rfl, hsize⟩

theorem checksumLength_le_addressValues (hrp : Text) (program : Bytes) :
    checksumLength ≤ (addressValues hrp program).length := by
  rw [addressValues, List.length_append, length_checksum]
  exact Nat.le_add_left _ _

/-- Symbols are read to their values. -/
theorem mapM_idxOf?_eq_some_iff {back : Text} {values : Bytes} :
    back.mapM (fun c => (alphabet.idxOf? c).map UInt8.ofNat) = some values ↔
      (∀ v ∈ values, v.toNat < 32) ∧ back = values.map symbol :=
  mapM_eq_some_iff idxOf?_alphabet

theorem separator_notMem_map_symbol {values : Bytes} (h : ∀ v ∈ values, v.toNat < 32) :
    separator ∉ values.map symbol := by
  intro hmem
  obtain ⟨v, hv, he⟩ := List.mem_map.1 hmem
  exact (symbol_printable (h v hv)).1 he

/-- **What is read as an address** is, in lower case, the address of what it is read as. -/
theorem decode?_eq_some_iff (hhrp : hrp ≠ []) :
    decode? hrp text = some program ↔ wellFormed text = true ∧ text.map lower = encode hrp program ∧
      (program.length = 20 ∨ program.length = 32) := by
  rw [decode?]
  constructor
  · intro h
    obtain ⟨hformed, hread⟩ := Option.ite_none_right_eq_some.1 h
    obtain ⟨⟨front, back⟩, hsplit, hfront⟩ := Option.bind_eq_some_iff.1 hread
    obtain ⟨htext, -⟩ := splitLast?_eq_some_iff.1 hsplit
    obtain ⟨⟨-, hlength, rfl⟩, hback⟩ := Option.ite_none_right_eq_some.1 hfront
    obtain ⟨values, hvalues, hend⟩ := Option.bind_eq_some_iff.1 hback
    obtain ⟨hbits, rfl⟩ := mapM_idxOf?_eq_some_iff.1 hvalues
    rw [List.length_map] at hlength
    obtain ⟨rfl, hsize⟩ := (readValues_iff hbits hlength).1 (Option.ite_none_right_eq_some.1 hend)
    exact ⟨hformed, htext, hsize⟩
  · rintro ⟨hformed, htext, hsize⟩
    have hbits : ∀ v ∈ addressValues hrp program, v.toNat < 32 := fun v => lt_of_mem_addressValues
    have hsplit : splitLast? separator (text.map lower) =
        some (hrp, (addressValues hrp program).map symbol) :=
      splitLast?_eq_some_iff.2 ⟨htext, separator_notMem_map_symbol hbits⟩
    have hlength := checksumLength_le_addressValues hrp program
    obtain ⟨hremainder, hprogram⟩ := (readValues_iff hbits hlength).2 ⟨rfl, hsize⟩
    rw [if_pos hformed, hsplit]
    refine Option.bind_eq_some_iff.2 ⟨_, rfl, ?_⟩
    dsimp only
    rw [if_pos ⟨hhrp, by rwa [List.length_map], rfl⟩]
    refine Option.bind_eq_some_iff.2 ⟨_, mapM_idxOf?_eq_some_iff.2 ⟨hbits, rfl⟩, ?_⟩
    rw [if_pos hremainder, hprogram]

/-- Nothing is read for an empty human-readable part. -/
theorem ne_nil_of_decode? (h : decode? hrp text = some program) : hrp ≠ [] := by
  obtain ⟨-, hread⟩ := Option.ite_none_right_eq_some.1 h
  obtain ⟨⟨front, back⟩, -, hfront⟩ := Option.bind_eq_some_iff.1 hread
  obtain ⟨⟨hne, -, rfl⟩, -⟩ := Option.ite_none_right_eq_some.1 hfront
  exact hne

/-- An address holds nothing but the human-readable part, the separator and symbols. -/
theorem of_mem_encode {P : UInt8 → Prop} (hhrp : ∀ c ∈ hrp, P c) (hseparator : P separator)
    (hsymbol : ∀ v : UInt8, v.toNat < 32 → P (symbol v)) : ∀ c ∈ encode hrp program, P c := by
  rw [encode_eq]
  refine List.forall_mem_append.2 ⟨hhrp, List.forall_mem_cons.2 ⟨hseparator, ?_⟩⟩
  intro c hc
  obtain ⟨v, hv, rfl⟩ := List.mem_map.1 hc
  exact hsymbol v (lt_of_mem_addressValues hv)

theorem wellFormed_iff : wellFormed text = true ↔ text.length ≤ maxLength ∧
    (∀ c ∈ text, 33 ≤ c ∧ c ≤ 126) ∧ ¬((∃ c ∈ text, isLower c) ∧ ∃ c ∈ text, isUpper c) := by
  simp only [wellFormed, Bool.and_eq_true, decide_eq_true_eq, List.all_eq_true,
    Bool.not_eq_eq_eq_not, Bool.not_true, ← Bool.not_eq_true, List.any_eq_true, and_assoc]

theorem length_encode (hrp : Text) (program : Bytes) :
    (encode hrp program).length = hrp.length + 1 + (addressValues hrp program).length := by
  rw [encode_eq, List.length_append, List.length_cons, List.length_map]
  omega

/-- How many values an address has: six of checksum, the version, and as many groups of five bits
as the octets of the program fill. -/
theorem length_addressValues (hrp : Text) (program : Bytes) :
    (addressValues hrp program).length = (8 * program.length + 4) / 5 + 7 := by
  obtain ⟨groups, hgroups⟩ : ∃ groups, programValues program = version :: groups := ⟨_, rfl⟩
  obtain ⟨fill, hfill, hlength, -⟩ := (programValues_eq_iff.1 hgroups).exists_fill
  rw [addressValues, hgroups, List.length_append, List.length_cons, length_checksum, checksumLength]
  omega

/-- **The human-readable part** is what stands in front of the last separator of an address. -/
theorem hrp_eq_of_encode_eq {hrp' : Text} {program' : Bytes}
    (h : encode hrp program = encode hrp' program') : hrp = hrp' := by
  have hsplit : ∀ (hrp : Text) (program : Bytes), splitLast? separator (encode hrp program) =
      some (hrp, (addressValues hrp program).map symbol) := fun hrp program =>
    splitLast?_append (separator_notMem_map_symbol fun _ => lt_of_mem_addressValues)
  have hfront := (hsplit hrp program).symm.trans ((congrArg _ h).trans (hsplit hrp' program'))
  exact (Prod.mk.inj (Option.some.inj hfront)).1

section Writing

variable (hprintable : ∀ c ∈ hrp, 33 ≤ c ∧ c ≤ 126 ∧ ¬isUpper c)

include hprintable

/-- Addresses are written in lower case, as far as the human-readable part is. -/
theorem map_lower_encode : (encode hrp program).map lower = encode hrp program :=
  map_lower_eq_self <|
    of_mem_encode (fun c hc => Bool.eq_false_iff.2 (hprintable c hc).2.2) (by decide)
    fun _ hv => (symbol_printable hv).2.1

/-- **What is written is read back**, if it is short enough. -/
theorem decode?_encode (hhrp : hrp ≠ []) (hsize : program.length = 20 ∨ program.length = 32)
    (hlength : (encode hrp program).length ≤ maxLength) :
    decode? hrp (encode hrp program) = some program := by
  have hencode : ∀ c ∈ encode hrp program, 33 ≤ c ∧ c ≤ 126 ∧ ¬isUpper c := by
    refine of_mem_encode hprintable (by decide) fun v hv => ?_
    obtain ⟨-, hupper, hlow, hhigh⟩ := symbol_printable hv
    exact ⟨hlow, hhigh, by rw [hupper]; exact Bool.false_ne_true⟩
  have hformed : wellFormed (encode hrp program) = true :=
    wellFormed_iff.2 ⟨hlength, fun c hc => ⟨(hencode c hc).1, (hencode c hc).2.1⟩,
      fun ⟨_, c, hc, hupper⟩ => (hencode c hc).2.2 hupper⟩
  exact (decode?_eq_some_iff hhrp).2 ⟨hformed, map_lower_encode hprintable, hsize⟩

end Writing

/-- **Addresses that are read are exactly those that are written.** A text is read as a program
of 20 or 32 octets if it is no longer than 90 octets, all of them printable, if it does not mix
letters of either case, and if it is in lower case what is written for the program. So the
address of such a program is read back to it, for any printable human-readable part without upper
case letters that leaves it short enough, with separators in it or not; and in lower case there
is one address only for a program. -/
theorem decode?_encode_exact (hrp : Text) (hhrp : hrp ≠ []) :
    (∀ (text : Text) (program : Bytes), decode? hrp text = some program ↔
      (program.length = 20 ∨ program.length = 32) ∧ text.length ≤ 90 ∧
        (∀ c ∈ text, 33 ≤ c ∧ c ≤ 126) ∧ ¬((∃ c ∈ text, isLower c) ∧ ∃ c ∈ text, isUpper c) ∧
        text.map lower = encode hrp program) ∧
      (∀ program : Bytes, (∀ c ∈ hrp, 33 ≤ c ∧ c ≤ 126 ∧ ¬isUpper c) →
        (program.length = 20 ∨ program.length = 32) → (encode hrp program).length ≤ 90 →
          decode? hrp (encode hrp program) = some program) ∧
      ∀ (text text' : Text) (program : Bytes),
        (∀ c ∈ text, ¬isUpper c) → (∀ c ∈ text', ¬isUpper c) →
        decode? hrp text = some program → decode? hrp text' = some program → text = text' := by
  refine ⟨?_, ?_, ?_⟩
  · intro text program
    rw [decode?_eq_some_iff hhrp, wellFormed_iff]
    constructor
    · rintro ⟨⟨hlength, hprintable, hcase⟩, htext, hsize⟩
      exact ⟨hsize, hlength, hprintable, hcase, htext⟩
    · rintro ⟨hsize, hlength, hprintable, hcase, htext⟩
      exact ⟨⟨hlength, hprintable, hcase⟩, htext, hsize⟩
  · intro program hprintable hsize hlength
    exact decode?_encode hprintable hhrp hsize hlength
  · intro text text' program htext htext' hread hread'
    obtain ⟨-, hlower, -⟩ := (decode?_eq_some_iff hhrp).1 hread
    obtain ⟨-, hlower', -⟩ := (decode?_eq_some_iff hhrp).1 hread'
    rw [map_lower_eq_self fun c hc => Bool.eq_false_iff.2 (htext c hc)] at hlower
    rw [map_lower_eq_self fun c hc => Bool.eq_false_iff.2 (htext' c hc)] at hlower'
    exact hlower.trans hlower'.symm

/-- With a separator in the human-readable part, the address of twenty zeros is
read back from what is written for them and from the same in upper case, and it
is the text that its letters spell. -/
theorem decode?_encode_exact_separator :
    let hrp := Text.ofString "x1y"
    let program : Bytes := List.replicate 20 0
    let text := Text.ofString "x1y1qqqqqqqqqqqqqqqqqqqqqqqqqqqqqqqqqephqef"
    let shouted := Text.ofString "X1Y1QQQQQQQQQQQQQQQQQQQQQQQQQQQQQQQQQEPHQEF"
    hrp ≠ [] ∧ decode? hrp shouted = some program ∧
      decode? hrp (encode hrp program) = some program ∧ encode hrp program = text := by
  intro hrp program text shouted
  have hhrp : hrp ≠ [] := by decide +kernel
  obtain ⟨hread, hback, honly⟩ := decode?_encode_exact hrp hhrp
  have hshouted : decode? hrp shouted = some program :=
    (hread shouted program).2 (by decide +kernel)
  have htext : decode? hrp text = some program := by decide +kernel
  have hencode := hback program (by decide +kernel) (by decide) (by decide +kernel)
  refine ⟨hhrp, hshouted, hencode, ?_⟩
  exact honly _ text program (by decide +kernel) (by decide +kernel) hencode htext

end WitnessSigning.Bech32
