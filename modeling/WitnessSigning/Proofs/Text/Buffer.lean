import WitnessSigning.Proofs.Text.Base58

/-!
# What the buffers of counting hold

Counting keeps its digits in a buffer that is wiped in the end, and no copy of it is left behind
only as long as the buffer never has to be moved. So it must never hold more digits than were
reserved for it before the first one is read, at no time between two writes.

A buffer is written to by replacing a digit or by one more digit at the most significant end
(`WitnessSigning.Radix.Write`), so it never gets shorter, and what it holds at the end of a run
bounds what it ever held (`WitnessSigning.Radix.Writes.length_le`). At the end of counting, and
after every digit that is read, it holds the digits of the number so far without a zero at the
most significant end (`WitnessSigning.Radix.spells_foldl_mulAdd`). A number below a power of the
base has no more digits than the exponent says, which bounds both ways of Base58: a digit of a
text makes at most one octet, and an octet at most two digits
(`WitnessSigning.Base58.buffers_within`).
-/

namespace WitnessSigning.Radix

variable {base factor : Nat}

/-! ### Writing to a buffer -/

/-- **One write** to a buffer of digits, the least significant one first: another digit in the
place of one, or one more digit at the most significant end. -/
inductive Write : List Nat → List Nat → Prop
  /-- A digit is replaced where it stands. -/
  | replace (low : List Nat) (d d' : Nat) (high : List Nat) :
      Write (low ++ d :: high) (low ++ d' :: high)
  /-- A digit is put behind the most significant one. -/
  | extend (ds : List Nat) (d : Nat) : Write ds (ds ++ [d])

/-- A write makes no buffer shorter. -/
theorem Write.length_le {ds ds' : List Nat} (h : Write ds ds') : ds.length ≤ ds'.length := by
  rcases h with ⟨low, d, d', high⟩ | d
  · rw [List.length_append, List.length_append, List.length_cons, List.length_cons]
  · rw [List.length_append]
    exact Nat.le_add_right _ _

/-- **A run of writes** leads from one content of a buffer to another one,
through all that it holds after a write. -/
inductive Writes : List Nat → List (List Nat) → List Nat → Prop
  /-- Nothing is written. -/
  | done (ds : List Nat) : Writes ds [] ds
  /-- One write, and the run after it. -/
  | write {ds ds' last : List Nat} {trace : List (List Nat)} :
      Write ds ds' → Writes ds' trace last → Writes ds (ds' :: trace) last

namespace Writes

variable {ds ds' last : List Nat} {trace trace' : List (List Nat)}

/-- Runs compose. -/
theorem append (h : Writes ds trace ds') (h' : Writes ds' trace' last) :
    Writes ds (trace ++ trace') last := by
  induction h with
  | done ds => exact h'
  | write hw _ ih => exact .write hw (ih h')

/-- What a run ends with was written, or there was nothing to write. -/
theorem mem (h : Writes ds trace last) : last ∈ ds :: trace := by
  induction h with
  | done ds => exact List.mem_singleton_self ds
  | write _ _ ih => exact List.mem_cons_of_mem _ ih

/-- **A buffer holds most at the end of a run.** -/
theorem length_le (h : Writes ds trace last) :
    ds.length ≤ last.length ∧ ∀ held ∈ trace, held.length ≤ last.length := by
  induction h with
  | done ds => exact ⟨le_rfl, nofun⟩
  | write hw _ ih => exact ⟨hw.length_le.trans ih.1, List.forall_mem_cons.2 ih⟩

end Writes

/-! ### The writes of counting -/

/-- What the buffer holds after each digit of a carry, when the digits are put
behind those that stand there. -/
def carryWrites (base : Nat) : Nat → Nat → List Nat → List (List Nat)
  | 0, _, _ => []
  | fuel + 1, carry, ds =>
    if carry = 0 then []
    else (ds ++ [carry % base]) :: carryWrites base fuel (carry / base) (ds ++ [carry % base])

/-- **What the buffer holds after each write** of `mulAdd`, when its lower digits are written
already and the higher ones are not. -/
def mulAddWrites (base factor : Nat) : Nat → List Nat → List Nat → List (List Nat)
  | carry, low, [] => carryWrites base carry carry low
  | carry, low, d :: high =>
    let sum := carry + d * factor
    (low ++ sum % base :: high) :: mulAddWrites base factor (sum / base) (low ++ [sum % base]) high

/-- What the buffer holds after each write, when digits are read one after another. -/
def countWrites (base factor : Nat) : List Nat → List Nat → List (List Nat)
  | _, [] => []
  | ds, v :: vs =>
    mulAddWrites base factor v [] ds ++ countWrites base factor (mulAdd base factor v ds) vs

theorem writes_carry (base fuel carry : Nat) (ds : List Nat) :
    Writes ds (carryWrites base fuel carry ds) (ds ++ carryDigits base fuel carry) := by
  induction fuel generalizing carry ds with
  | zero =>
    rw [carryWrites, carryDigits, List.append_nil]
    exact .done ds
  | succ fuel ih =>
    rw [carryWrites, carryDigits]
    split
    · rw [List.append_nil]
      exact .done ds
    · have hrest := ih (carry / base) (ds ++ [carry % base])
      rw [List.append_assoc] at hrest
      exact .write (.extend ds _) hrest

/-- **A step of counting** replaces the digits from the lowest one up and puts
the carry behind them. -/
theorem writes_mulAdd (base factor carry : Nat) (low high : List Nat) :
    Writes (low ++ high) (mulAddWrites base factor carry low high)
      (low ++ mulAdd base factor carry high) := by
  induction high generalizing carry low with
  | nil =>
    rw [List.append_nil]
    exact writes_carry base carry carry low
  | cons d high ih =>
    have hrest := ih ((carry + d * factor) / base) (low ++ [(carry + d * factor) % base])
    rw [List.append_assoc, List.append_assoc] at hrest
    exact .write (.replace low d _ high) hrest

/-- **Counting digit by digit** is a run of writes. -/
theorem writes_count (base factor : Nat) (ds vs : List Nat) :
    Writes ds (countWrites base factor ds vs)
      (vs.foldl (fun ds v => mulAdd base factor v ds) ds) := by
  induction vs generalizing ds with
  | nil => exact .done ds
  | cons v vs ih => exact (writes_mulAdd base factor v [] ds).append (ih _)

theorem countWrites_append (base factor : Nat) (ds vs ws : List Nat) :
    countWrites base factor ds (vs ++ ws) = countWrites base factor ds vs ++
      countWrites base factor (vs.foldl (fun ds v => mulAdd base factor v ds) ds) ws := by
  induction vs generalizing ds with
  | nil => rfl
  | cons v vs ih =>
    rw [List.cons_append, countWrites, countWrites, ih, List.append_assoc, List.foldl_cons]

/-! ### What a buffer stands for -/

/-- **Digits spell a number** in a base: none is too large, the most significant one is
not zero, and the number is theirs. -/
structure Spells (base n : Nat) (ds : List Nat) : Prop where
  lt_base : ∀ d ∈ ds, d < base
  getLast?_ne : ds.getLast? ≠ some 0
  value_eq : value base ds = n

/-- **A number is spelled** by its digits. -/
theorem spells_digits (hb : 1 < base) (n : Nat) : Spells base n (Nat.digits base n) where
  lt_base _ := Nat.digits_lt_base hb
  getLast?_ne h := by
    obtain ⟨front, hfront⟩ := List.getLast?_eq_some_iff.1 h
    have hreverse : (Nat.digits base n).reverse = 0 :: front.reverse := by
      rw [hfront, List.reverse_append]
      rfl
    exact ne_zero_of_reverse_digits hreverse rfl
  value_eq := by rw [value_eq_ofDigits, Nat.ofDigits_digits]

/-- **After every digit** that was read, the buffer spells the number so far. -/
theorem spells_foldl_mulAdd (hb : 1 < base) (hf : 0 < factor) (vs : List Nat) :
    Spells base (value factor vs.reverse) (vs.foldl (fun ds v => mulAdd base factor v ds) []) := by
  rw [foldl_mulAdd_nil hb hf]
  exact spells_digits hb _

/-- **The buffer is long enough** if its digits go as far as those that are read. -/
theorem length_foldl_mulAdd_le (hb : 1 < base) (hf : 1 < factor) {vs : List Nat}
    (hvs : ∀ v ∈ vs, v < factor) {room : Nat} (hroom : factor ^ vs.length ≤ base ^ room) :
    (vs.foldl (fun ds v => mulAdd base factor v ds) []).length ≤ room := by
  have hlt : value factor vs.reverse < factor ^ vs.reverse.length := by
    rw [value_eq_ofDigits]
    exact Nat.ofDigits_lt_base_pow_length hf fun v hv => hvs v (List.mem_reverse.1 hv)
  rw [List.length_reverse] at hlt
  rw [foldl_mulAdd_nil hb (Nat.zero_lt_of_lt hf), Nat.digits_length_le_iff hb]
  exact hlt.trans_le hroom

/-- One more digit makes the buffer longer by one at most, if it is of no larger base. -/
theorem length_mulAdd_digits_le (hb : 1 < base) (hf : 0 < factor) (hle : factor ≤ base) {v : Nat}
    (hv : v < factor) (n : Nat) :
    (mulAdd base factor v (Nat.digits base n)).length ≤ (Nat.digits base n).length + 1 := by
  have hn : n < base ^ (Nat.digits base n).length := Nat.lt_base_pow_length_digits hb
  rw [mulAdd_digits hb hf, Nat.digits_length_le_iff hb, pow_succ']
  calc factor * n + v < factor * (n + 1) := by rw [Nat.mul_succ]; omega
    _ ≤ base * base ^ (Nat.digits base n).length := Nat.mul_le_mul hle hn

end WitnessSigning.Radix

namespace WitnessSigning.Base58

open Radix

/-! ### Reading a text -/

/-- The values of the digits that a text starts with. -/
def leadingValues : Text → List Nat
  | [] => []
  | c :: text =>
    match value c with
    | .ok v => v :: leadingValues text
    | .error _ => []

/-- What the buffer holds after each zero that is put in front of the octets, one for each
zero digit that the text starts with. -/
def zeroWrites : List Nat → Text → List (List Nat)
  | _, [] => []
  | octets, c :: text =>
    if c = zeroDigit then (octets ++ [0]) :: zeroWrites (octets ++ [0]) text else []

/-- **All that the buffer of `decode` holds** after a write: while digits are read, as far as
there are any, and then, if there is nothing else, while zeros are put in front. -/
def decodeWrites (text : Text) : List (List Nat) :=
  countWrites 256 58 [] (leadingValues text) ++
    match text.foldlM readDigit [] with
    | .ok octets => zeroWrites octets text
    | .error _ => []

theorem lt_of_mem_leadingValues (text : Text) : ∀ v ∈ leadingValues text, v < 58 := by
  induction text with
  | nil => exact nofun
  | cons c text ih =>
    rw [leadingValues]
    split
    · next v hv => exact List.forall_mem_cons.2 ⟨(value_eq_ok_iff.1 hv).1, ih⟩
    · exact nofun

theorem length_leadingValues_le (text : Text) : (leadingValues text).length ≤ text.length := by
  induction text with
  | nil => exact le_rfl
  | cons c text ih =>
    rw [leadingValues]
    split
    · exact Nat.succ_le_succ ih
    · exact Nat.zero_le _

theorem leadingValues_append_map_digit {vs : List Nat} (hvs : ∀ v ∈ vs, v < 58) (rest : Text) :
    leadingValues (vs.map digit ++ rest) = vs ++ leadingValues rest := by
  induction vs with
  | nil => rfl
  | cons v vs ih =>
    obtain ⟨hv, hvs⟩ := List.forall_mem_cons.1 hvs
    rw [List.map_cons, List.cons_append, leadingValues, value_eq_ok_iff.2 ⟨hv, rfl⟩]
    exact congrArg _ (ih hvs)

/-- **A text that is read** consists of digits, and leaves the digits of their number. -/
theorem foldlM_readDigit_nil_eq_ok {text : Text} {octets : List Nat}
    (h : text.foldlM readDigit [] = .ok octets) :
    text = (leadingValues text).map digit ∧
      octets = Nat.digits 256 (Radix.value 58 (leadingValues text).reverse) := by
  obtain ⟨vs, hvs, rfl, rfl⟩ := (foldlM_readDigit_eq_ok (n := 0)).1 (by rwa [Nat.digits_zero])
  have hvalues : leadingValues (vs.map digit) = vs := by
    have happend := leadingValues_append_map_digit hvs []
    rwa [List.append_nil, leadingValues, List.append_nil] at happend
  rw [hvalues, foldl_eq_value]
  exact ⟨rfl, rfl⟩

/-- **Digits are read to the end** exactly if all of them are in the alphabet. -/
theorem exists_foldlM_readDigit_iff (octets : List Nat) (text : Text) :
    (∃ octets', text.foldlM readDigit octets = .ok octets') ↔ ∀ c ∈ text, c ∈ alphabet := by
  induction text generalizing octets with
  | nil => exact iff_of_true ⟨octets, rfl⟩ nofun
  | cons c text ih =>
    rw [List.forall_mem_cons, mem_alphabet_iff]
    simp only [List.foldlM_cons, readDigit, Error.bind_eq_ok]
    constructor
    · rintro ⟨octets', next, ⟨v, hv, -⟩, hrest⟩
      exact ⟨⟨v, hv⟩, (ih next).1 ⟨octets', hrest⟩⟩
    · rintro ⟨⟨v, hv⟩, hrest⟩
      obtain ⟨octets', h⟩ := (ih _).2 hrest
      exact ⟨octets', _, ⟨v, hv, rfl⟩, h⟩

theorem writes_zeros (octets : List Nat) (text : Text) :
    Writes octets (zeroWrites octets text)
      (octets ++ List.replicate (text.takeWhile (· == zeroDigit)).length 0) := by
  induction text generalizing octets with
  | nil =>
    rw [List.takeWhile_nil, List.length_nil, List.replicate_zero, List.append_nil]
    exact .done octets
  | cons c text ih =>
    rw [zeroWrites]
    split
    · next hc =>
      have hrest := ih (octets ++ [0])
      rw [List.append_assoc] at hrest
      rw [List.takeWhile_cons_of_pos (by simpa using hc), List.length_cons, List.replicate_succ]
      exact .write (.extend octets 0) hrest
    · next hc =>
      rw [List.takeWhile_cons_of_neg (by simpa using hc), List.length_nil, List.replicate_zero,
        List.append_nil]
      exact .done octets

/-- **The octets of a text** are no more than its digits, the zeros in front of both counted. -/
theorem length_octets_add_zeros_le {text : Text} {octets : List Nat}
    (h : text.foldlM readDigit [] = .ok octets) :
    octets.length + (text.takeWhile (· == zeroDigit)).length ≤ text.length := by
  obtain ⟨htext, rfl⟩ := foldlM_readDigit_nil_eq_ok h
  obtain ⟨zeros, n, hnumeral⟩ := exists_eq_numeral (by omega) (lt_of_mem_leadingValues text)
  have hzeros : text.takeWhile (· == zeroDigit) = List.replicate zeros zeroDigit := by
    rw [htext, hnumeral, takeWhile_map_numeral (by omega) (fun v => digit_eq_zeroDigit_iff)]
  have hlength : text.length = zeros + (Nat.digits 58 n).length := by
    rw [htext, hnumeral, List.length_map, numeral, List.length_append, List.length_replicate,
      List.length_reverse]
  have hdigits : (Nat.digits 256 n).length ≤ (Nat.digits 58 n).length := by
    rw [Nat.digits_length_le_iff (by omega)]
    exact (Nat.lt_base_pow_length_digits (by omega)).trans_le (Nat.pow_le_pow_left (by omega) _)
  -- The zero digits in front do not count in the number, so there is room for a zero octet each.
  rw [hnumeral, value_numeral, hzeros, List.length_replicate, hlength]
  omega

/-- **The buffer of `decode`** is written to in a run that never leaves more octets in it
than the text is long. The text is read exactly if the alphabet has all its digits, and then
to the octets that the run ends with. -/
theorem exists_writes_decode (text : Text) :
    ∃ last : List Nat, Writes [] (decodeWrites text) last ∧ last.length ≤ text.length ∧
      ∀ bs : Bytes, decodePlain text = .ok bs ↔
        (∀ c ∈ text, c ∈ alphabet) ∧ bs = last.reverse.map UInt8.ofNat := by
  have hcount := writes_count 256 58 [] (leadingValues text)
  rcases h : text.foldlM readDigit [] with e | octets
  · refine ⟨(leadingValues text).foldl (fun ds v => mulAdd 256 58 v ds) [], ?_, ?_, fun bs => ?_⟩
    · -- An octet that is no digit ends the run before any zero is put in front.
      rw [decodeWrites, h, List.append_nil]
      exact hcount
    · refine (length_foldl_mulAdd_le (by omega) (by omega) (lt_of_mem_leadingValues text) ?_).trans
        (length_leadingValues_le text)
      exact Nat.pow_le_pow_left (by omega) _
    · rw [← exists_foldlM_readDigit_iff [], decodePlain, h]
      refine iff_of_false (fun hread => ?_) fun hdigits => ?_
      · cases hread
      · obtain ⟨⟨octets, hoctets⟩, -⟩ := hdigits
        cases hoctets
  · have hoctets := (foldlM_readDigit_nil_eq_ok h).2
    rw [foldl_mulAdd_nil (by omega) (by omega), ← hoctets] at hcount
    refine ⟨octets ++ List.replicate (text.takeWhile (· == zeroDigit)).length 0, ?_, ?_,
      fun bs => ?_⟩
    · rw [decodeWrites, h]
      exact hcount.append (writes_zeros octets text)
    · rw [List.length_append, List.length_replicate]
      exact length_octets_add_zeros_le h
    · have hread : decodePlain text =
          .ok ((octets ++ List.replicate (text.takeWhile (· == zeroDigit)).length 0).reverse.map
            UInt8.ofNat) := by
        rw [decodePlain, h, List.reverse_append, List.map_append, List.reverse_replicate,
          List.map_replicate, List.map_const']
        rfl
      have hdigits := (exists_foldlM_readDigit_iff [] text).1 ⟨octets, h⟩
      rw [hread, Except.ok.injEq, and_iff_right hdigits]
      exact eq_comm

/-- What is left of the digits that were read is among what the buffer holds,
whatever follows them. -/
theorem mem_decodeWrites {front : Text} {octets : List Nat}
    (h : front.foldlM readDigit [] = .ok octets) (rest : Text) :
    octets ∈ [] :: decodeWrites (front ++ rest) := by
  obtain ⟨hfront, hoctets⟩ := foldlM_readDigit_nil_eq_ok h
  have hvalues : leadingValues (front ++ rest) = leadingValues front ++ leadingValues rest := by
    conv_lhs => rw [hfront]
    exact leadingValues_append_map_digit (lt_of_mem_leadingValues front) rest
  have hmem := (writes_count 256 58 [] (leadingValues front)).mem
  rw [foldl_mulAdd_nil (by omega) (by omega), ← hoctets] at hmem
  rw [decodeWrites, hvalues, countWrites_append, List.append_assoc, ← List.cons_append]
  exact List.mem_append_left _ hmem

/-- After every digit of a text, the buffer spells the number so far, and another
digit brings one octet more at most. -/
theorem spells_of_foldlM_readDigit {front : Text} {octets : List Nat}
    (h : front.foldlM readDigit [] = .ok octets) :
    Spells 256 (Radix.value 58 (leadingValues front).reverse) octets ∧
      ∀ (c : UInt8) (octets' : List Nat),
        readDigit octets c = .ok octets' → octets'.length ≤ octets.length + 1 := by
  obtain ⟨-, rfl⟩ := foldlM_readDigit_nil_eq_ok h
  refine ⟨spells_digits (by omega) _, fun c octets' hread => ?_⟩
  obtain ⟨v, hv, hnext⟩ := Error.bind_eq_ok.1 hread
  cases hnext
  exact length_mulAdd_digits_le (by omega) (by omega) (by omega) (value_eq_ok_iff.1 hv).1 _

/-! ### Writing a payload -/

/-- **All that the buffer of `encode` holds** after a write. -/
def encodeWrites (payload : Bytes) : List (List Nat) :=
  countWrites 58 256 [] ((payload ++ checksum payload).map UInt8.toNat)

/-- After every octet, the buffer spells the number so far. -/
theorem spells_foldl_writeOctet (front : Bytes) :
    Spells 58 (ofBigEndian front) (front.foldl writeOctet []) := by
  have hnumber : ofBigEndian front = Radix.value 256 (front.map UInt8.toNat).reverse := by
    rw [← foldl_eq_value, List.foldl_map]
    rfl
  rw [hnumber, foldl_writeOctet_eq]
  exact spells_foldl_mulAdd (by omega) (by omega) _

/-- **The buffer of `encode`** never holds more than two digits for every octet. -/
theorem length_foldl_writeOctet_le (bs : Bytes) :
    (bs.foldl writeOctet []).length ≤ 2 * bs.length := by
  have hlt : ∀ v ∈ bs.map UInt8.toNat, v < 256 := by
    intro v hv
    obtain ⟨b, -, rfl⟩ := List.mem_map.1 hv
    exact b.toNat_lt
  rw [foldl_writeOctet_eq]
  refine length_foldl_mulAdd_le (by omega) (by omega) hlt ?_
  rw [List.length_map, pow_mul]
  exact Nat.pow_le_pow_left (by omega) _

theorem writes_encode (payload : Bytes) :
    Writes [] (encodeWrites payload) ((payload ++ checksum payload).foldl writeOctet []) := by
  rw [foldl_writeOctet_eq]
  exact writes_count 58 256 [] _

/-! ### Both ways -/

/-- **No buffer outgrows what is reserved for it.** Whatever text is read, and as far as it is
read, the octets are never more than the text is long, not between two writes either, and each
digit brings at most one more. A text is read exactly if all its digits are in the alphabet, to
what the buffer holds in the end. Whatever payload is written, there are never more than two
digits for each of its octets and each of the checksum's. After every digit and after every octet
the buffer spells the number that was read so far. -/
theorem buffers_within :
    (∀ text : Text,
      (∀ octets ∈ decodeWrites text, octets.length ≤ text.length) ∧
      ∃ last : List Nat, Writes [] (decodeWrites text) last ∧
        ∀ bs : Bytes, decodePlain text = .ok bs ↔
          (∀ c ∈ text, c ∈ alphabet) ∧ bs = last.reverse.map UInt8.ofNat) ∧
    (∀ (front rest : Text) (octets : List Nat), front.foldlM readDigit [] = .ok octets →
      octets ∈ [] :: decodeWrites (front ++ rest) ∧
      Spells 256 (Radix.value 58 (leadingValues front).reverse) octets ∧
      ∀ (c : UInt8) (octets' : List Nat),
        readDigit octets c = .ok octets' → octets'.length ≤ octets.length + 1) ∧
    (∀ payload : Bytes,
      (∀ digits ∈ encodeWrites payload, digits.length ≤ 2 * (payload.length + 4)) ∧
      Writes [] (encodeWrites payload) ((payload ++ checksum payload).foldl writeOctet [])) ∧
    ∀ front : Bytes, Spells 58 (ofBigEndian front) (front.foldl writeOctet []) := by
  refine ⟨fun text => ?_,
    fun front rest octets h => ⟨mem_decodeWrites h rest, spells_of_foldlM_readDigit h⟩,
    fun payload => ?_, spells_foldl_writeOctet⟩
  · obtain ⟨last, hwrites, hlast, hread⟩ := exists_writes_decode text
    exact ⟨fun octets hmem => (hwrites.length_le.2 octets hmem).trans hlast, last, hwrites, hread⟩
  · have hwrites := writes_encode payload
    refine ⟨fun digits hmem => (hwrites.length_le.2 digits hmem).trans ?_, hwrites⟩
    have hlength := length_foldl_writeOctet_le (payload ++ checksum payload)
    rwa [List.length_append, length_checksum] at hlength

/-- A zero digit fills no octet yet, a digit of the value 57 behind it fills one, and another one
the second, also if an octet follows that is no digit. -/
theorem buffers_within_tight :
    let front : Text := [49, 122]
    front.foldlM readDigit [] = .ok [57] ∧ [57] ∈ [] :: decodeWrites (front ++ [122, 48]) ∧
      Spells 256 57 [57] ∧
      readDigit [57] 122 = .ok [35, 13] ∧ [35, 13].length ≤ [57].length + 1 := by
  intro front
  have hfront : front.foldlM readDigit [] = .ok [57] := by decide
  have hread : readDigit [57] 122 = .ok [35, 13] := by decide
  have hnumber : Radix.value 58 (leadingValues front).reverse = 57 := by decide
  obtain ⟨-, hreading, -⟩ := buffers_within
  obtain ⟨hheld, hspells, hgrows⟩ := hreading front [122, 48] [57] hfront
  rw [hnumber] at hspells
  exact ⟨hfront, hheld, hspells, hread, hgrows 122 [35, 13] hread⟩

end WitnessSigning.Base58
