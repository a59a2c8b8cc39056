import WitnessSigning.Proofs.Script.Layout
import WitnessSigning.Proofs.Signature.Places
import WitnessSigning.Proofs.Wire.Answering

/-!
# Where reading a script looks

A script says itself how many keys it has, by how often another one is pushed. Whoever reads
it by places goes from key to key and moves a place on by hand, and that this place never
leaves the script hangs on the two questions that take it from the length: whether 33 octets
are left for another key, and whether exactly two are left behind the last one. For a place
behind the end, both would wrap around.

`WitnessSigning.RedeemScript.lookScript` reads in this way, with places where
`WitnessSigning.RedeemScript.read` has a cursor, and with as many rounds for the keys as it is
given. It goes the way of the cursor, key by key (`WitnessSigning.RedeemScript.run?_lookKey`).
Every round but the last one passes 34 octets, so the keys are over before the rounds are if the
rounds could pass the whole script (`WitnessSigning.RedeemScript.run?_lookKeys`), and what comes
out is what is read (`WitnessSigning.RedeemScript.run?_lookScript`).

Encodings of signatures and scripts are the two formats here whose octets say in which place to
look next. Neither of them is ever looked at outside (`WitnessSigning.looks_stayWithin`).
-/

namespace WitnessSigning

namespace RedeemScript

open Inspection Wire

/-! ### The inspection -/

/-- Reads one key behind the operation that pushes it, which stands in the given place. -/
def lookKey (size place : Nat) : Inspection PublicKey := do
  if (← difference (← difference size place) 1) < 33 then
    .fail (.layout .truncatedKey)
  else
    match PublicKey.ofBytes (← range (place + 1) 33) with
    | .ok key => return key
    | .error fault => .fail (.layout (.key fault))

/-- Reads keys from a place on as long as another one is pushed, behind those already read, which
come latest first, and gives back the place behind them. -/
def lookKeys (size : Nat) : Nat → List PublicKey → Nat → Inspection (List PublicKey × Nat)
  | 0, _, _ => .endless
  | rounds + 1, done, place => do
    if place < size then
      if (← octet place) = Opcode.pushKey then
        let key ← lookKey size place
        lookKeys size rounds (key :: done) (place + 34)
      else
        return (done.reverse, place)
    else
      return (done.reverse, place)

/-- Reads what follows the keys. -/
def lookTail (size : Nat) (keys : List PublicKey) (place : Nat) : Inspection Unit := do
  if (← difference size place) ≠ 2 then
    .fail (.layout .surplus)
  else
    let count ← octet place
    if keys.isEmpty || count != Opcode.small keys.length then
      .fail (.layout .countOpcode)
    else
      let check ← octet (place + 1)
      if check != Opcode.checkMultisig then .fail (.layout .missingCheck) else return ()

/-- Reads what follows the keys, unless there are too many of them, and builds
the script that they make. -/
def lookEnd (size threshold : Nat) (keys : List PublicKey) (place : Nat) :
    Inspection RedeemScript := do
  let _ ← if keys.length ≤ maxKeys then lookTail size keys place else pure ()
  match build keys threshold with
  | .ok script => return script
  | .error e => .fail e

/-- **Reads a redeem script** of `size` octets, in the given number of rounds for its keys. -/
def lookScript (rounds size : Nat) : Inspection RedeemScript := do
  if size < 3 then
    .fail (.layout .tooShort)
  else
    match Opcode.small? (← octet 0) with
    | none => .fail (.layout .thresholdOpcode)
    | some threshold =>
      let (keys, place) ← lookKeys size rounds [] 1
      lookEnd size threshold keys place

section Runs

variable {data rest : Bytes} {c : Cursor} {keys done : List PublicKey}

/-! ### The keys -/

/-- A key that is pushed is read from the 33 octets that follow, if there are as many. -/
theorem readKey_fst (h : c.unread = Opcode.pushKey :: rest) : (readKey c).1 =
    if rest.length < 33 then .error (.layout .truncatedKey)
    else (PublicKey.ofBytes (rest.take 33)).mapError fun fault => .layout (.key fault) := by
  obtain ⟨passed, unread⟩ := c
  obtain rfl : unread = Opcode.pushKey :: rest := h
  have hu8 : Reader.u8 ⟨passed, Opcode.pushKey :: rest⟩ =
      (.ok Opcode.pushKey, ⟨Opcode.pushKey :: passed, rest⟩) := rfl
  have hunread : Reader.unread ⟨Opcode.pushKey :: passed, rest⟩ = (.ok rest, _) := rfl
  have hshort : (rest.take 33).length < 33 ↔ rest.length < 33 := by
    rw [List.length_take]
    omega
  rw [readKey, Reader.bind_of_ok hu8, Reader.bind_of_ok hunread]
  by_cases hl : rest.length < 33
  · rw [if_pos (hshort.2 hl), if_pos hl]
    rfl
  · have hholds : Cursor.holds ⟨Opcode.pushKey :: passed, rest⟩ 33 = true :=
      (Cursor.holds_iff _ _).2 (Nat.le_of_not_lt hl)
    have htake : Reader.take 33 ⟨Opcode.pushKey :: passed, rest⟩ = (.ok (rest.take 33), _) :=
      if_pos hholds
    rw [if_neg (mt hshort.1 hl), if_neg hl, Reader.bind_of_ok htake]
    cases PublicKey.ofBytes (rest.take 33) with
    | ok key => rfl
    | error fault => rfl

/-- **One key** is read by places as it is by the cursor. -/
theorem run?_lookKey (h : c.In data) (hpush : c.unread = Opcode.pushKey :: rest) :
    (lookKey data.length c.position).run? data = some (readKey c).1 := by
  have hlength : data.length - c.position = rest.length + 1 := by
    rw [h.length_sub_position, hpush, List.length_cons]
  have hbehind : (data.drop (c.position + 1)).take 33 = rest.take 33 := by
    rw [← List.drop_drop, ← h.unread_eq, hpush]
    rfl
  rw [lookKey, readKey_fst hpush, run?_bind_of_ok (run?_difference (by omega)),
    run?_bind_of_ok (run?_difference (by omega)), hlength, Nat.add_sub_cancel]
  split
  · rfl
  · rw [run?_bind_of_ok (run?_range (by omega)), hbehind]
    cases PublicKey.ofBytes (rest.take 33) with
    | ok key => rfl
    | error fault => rfl

theorem readKeys_of_not_push {left : Nat} (h : c.unread.head? ≠ some Opcode.pushKey) :
    readKeys left done c = (.ok done.reverse, c) := by
  cases left with
  | zero => rfl
  | succ left => rw [readKeys, if_neg h]

/-- **The keys** are read by places as they are by the cursor, and this is over before the rounds
are: a key takes one of them, and 34 octets. -/
theorem run?_lookKeys {rounds left : Nat} (h : c.In data) (hrounds : c.remaining < 34 * rounds)
    (hleft : c.remaining ≤ left) : (lookKeys data.length rounds done c.position).run? data =
      some ((readKeys left done c).1.map fun keys =>
        (keys, (readKeys left done c).2.position)) := by
  induction rounds generalizing left done c with
  | zero => exact absurd hrounds (Nat.not_lt_zero _)
  | succ rounds ih =>
    have hin := h.position_add_remaining
    have hoctet : data[c.position]? = c.unread.head? := by
      rw [← Nat.add_zero c.position, h.getElem?_position_add, List.head?_eq_getElem?]
    rw [lookKeys]
    by_cases hpush : c.unread.head? = some Opcode.pushKey
    · obtain ⟨rest, hunread⟩ := List.head?_eq_some_iff.1 hpush
      have hremaining : c.remaining = rest.length + 1 := congrArg List.length hunread
      obtain ⟨left, rfl⟩ : ∃ k, left = k + 1 := Nat.exists_eq_add_one.2 (by omega)
      have hlook := run?_lookKey h hunread
      rw [if_pos (by omega), run?_bind_of_ok (run?_octet (hoctet.trans hpush)), if_pos rfl,
        readKeys, if_pos hpush]
      rcases hread : readKey c with ⟨e | key, m⟩
      · rw [hread] at hlook
        exact run?_bind_of_error hlook
      · rw [hread] at hlook
        have hpassed := (readKey_eq_ok hpush).1 hread
        have hposition : m.position = c.position + 34 := by
          rw [hpassed.position_eq, List.length_cons, PublicKey.bytes, key.encoding.length_toList]
        have hm := (hpassed.in h).position_add_remaining
        rw [run?_bind_of_ok hlook, ← hposition]
        exact ih (hpassed.in h) (by omega) (by omega)
    · rw [readKeys_of_not_push hpush]
      split
      · next hplace =>
        have hb := List.getElem?_eq_getElem hplace
        rw [run?_bind_of_ok (run?_octet hb),
          if_neg fun he => hpush (hoctet.symm.trans (hb.trans (congrArg some he)))]
        rfl
      · rfl

/-! ### What follows the keys -/

theorem readTail_fst_of_length_ne (h : c.unread.length ≠ 2) :
    (readTail keys c).1 = .error (.layout .surplus) := by
  have hunread : Reader.unread c = (.ok c.unread, c) := rfl
  rw [readTail, Reader.bind_of_ok hunread, if_pos h]
  rfl

theorem readTail_fst_of_pair {count check : UInt8} (h : c.unread = [count, check]) :
    (readTail keys c).1 =
      if keys.isEmpty || count != Opcode.small keys.length then .error (.layout .countOpcode)
      else if check != Opcode.checkMultisig then .error (.layout .missingCheck) else .ok () := by
  obtain ⟨passed, unread⟩ := c
  obtain rfl : unread = [count, check] := h
  have hunread : Reader.unread ⟨passed, [count, check]⟩ = (.ok [count, check], _) := rfl
  have hcount : Reader.u8 ⟨passed, [count, check]⟩ = (.ok count, ⟨count :: passed, [check]⟩) := rfl
  have hcheck : Reader.u8 ⟨count :: passed, [check]⟩ =
      (.ok check, ⟨check :: count :: passed, []⟩) := rfl
  have htwo : ¬[count, check].length ≠ 2 := not_not.2 rfl
  rw [readTail, Reader.bind_of_ok hunread, if_neg htwo, Reader.bind_of_ok hcount]
  split
  · rfl
  · rw [Reader.bind_of_ok hcheck]
    split <;> rfl

/-- **What follows the keys** is read by places as it is by the cursor. -/
theorem run?_lookTail (h : c.In data) :
    (lookTail data.length keys c.position).run? data = some (readTail keys c).1 := by
  have hin := h.position_add_remaining
  rw [lookTail, run?_bind_of_ok (run?_difference (by omega)), h.length_sub_position]
  by_cases htwo : c.unread.length = 2
  · obtain ⟨count, check, hpair⟩ := List.length_eq_two.1 htwo
    have hcount : data[c.position]? = some count := by
      rw [← Nat.add_zero c.position, h.getElem?_position_add, hpair]
      rfl
    have hcheck : data[c.position + 1]? = some check := by
      rw [h.getElem?_position_add, hpair]
      rfl
    rw [if_neg (not_not.2 htwo), run?_bind_of_ok (run?_octet hcount), readTail_fst_of_pair hpair]
    split
    · rfl
    · rw [run?_bind_of_ok (run?_octet hcheck)]
      split <;> rfl
  · rw [if_pos htwo, readTail_fst_of_length_ne htwo]
    rfl

/-- **The end of a script** comes by places to what it comes to by the cursor. -/
theorem run?_lookEnd {threshold : Nat} (h : c.In data) :
    (lookEnd data.length threshold keys c.position).run? data =
      some (readEnd threshold keys c).1 := by
  have hbuilt : (match build keys threshold with
      | .ok script => (pure script : Inspection RedeemScript)
      | .error e => .fail e).run? data = some (build keys threshold) := by
    cases build keys threshold with
    | ok script => rfl
    | error e => rfl
  rw [lookEnd, readEnd_eq]
  split
  · have htail : (lookTail data.length keys c.position).run? data = _ := run?_lookTail h
    rcases hread : readTail keys c with ⟨e | _, m⟩
    · rw [hread] at htail
      exact run?_bind_of_error htail
    · rw [hread] at htail
      exact (run?_bind_of_ok htail).trans hbuilt
  · exact hbuilt

end Runs

/-! ### The whole script -/

/-- **Reading a script by places** comes to the very outcome of reading it, and
never looks outside. -/
theorem run?_lookScript {bs : Bytes} {rounds : Nat} (hrounds : bs.length ≤ 34 * rounds) :
    (lookScript rounds bs.length).run? bs = some (parse bs) := by
  rw [lookScript]
  by_cases hlong : bs.length < 3
  · rw [if_pos hlong, parse_of_short hlong]
    rfl
  obtain ⟨op, rest, rfl⟩ := List.exists_cons_of_length_pos (by omega : 0 < bs.length)
  have hoctet : (op :: rest)[0]? = some op := rfl
  have hl : 2 ≤ rest.length := by
    rw [List.length_cons] at hlong
    omega
  rw [if_neg hlong, run?_bind_of_ok (run?_octet hoctet)]
  cases hop : Opcode.small? op with
  | none =>
    rw [parse_of_small?_eq_none hl hop]
    rfl
  | some threshold =>
    have hstart : Cursor.In ⟨[op], rest⟩ (op :: rest) := rfl
    have hrest : Cursor.remaining ⟨[op], rest⟩ < 34 * rounds := Nat.lt_of_succ_le hrounds
    have hkeys : (lookKeys _ rounds [] 1).run? (op :: rest) = some _ :=
      run?_lookKeys hstart hrest (Nat.le_succ rest.length)
    rw [parse, read_eq hl hop]
    rcases hread : readKeys (rest.length + 1) [] ⟨[op], rest⟩ with ⟨e | keys, m⟩
    · rw [hread] at hkeys
      rw [Reader.bind_of_error hread]
      exact run?_bind_of_error hkeys
    obtain ⟨_, -, hpassed, -⟩ := (readKeys_eq_ok (Nat.le_succ _)).1 hread
    rw [hread] at hkeys
    rw [Reader.bind_of_ok hread]
    exact (run?_bind_of_ok hkeys).trans (run?_lookEnd (hpassed.in hstart))

/-- A script that breaks off behind its keys is refused for what does not follow them. -/
theorem parse_pushes {threshold : Nat} {keys : List PublicKey} (hm : 1 ≤ threshold)
    (hm' : threshold ≤ 16) (hk : keys ≠ []) (hn : keys.length ≤ maxKeys) :
    parse (Opcode.small threshold :: pushes keys) = .error (.layout .surplus) := by
  have hop := small?_eq_some_iff.2 ⟨⟨hm, hm'⟩, rfl⟩
  have hl : 2 ≤ (pushes keys).length := by
    obtain ⟨key, keys, rfl⟩ := List.exists_cons_of_ne_nil hk
    rw [pushes, List.flatMap_cons, List.length_append, List.length_cons, PublicKey.bytes,
      key.encoding.length_toList]
    omega
  have hpassed : Cursor.Passes ⟨[Opcode.small threshold], pushes keys⟩ (pushes keys)
      ⟨(pushes keys).reverse ++ [Opcode.small threshold], []⟩ := ⟨(List.append_nil _).symm, rfl⟩
  have hnoPush : ([] : Bytes).head? ≠ some Opcode.pushKey := by simp
  have hnoTail : ([] : Bytes).length ≠ 2 := by simp
  have hkeys : readKeys ((pushes keys).length + 1) [] _ = (.ok keys, _) :=
    (readKeys_eq_ok (Nat.le_succ _)).2 ⟨keys, rfl, hpassed, hnoPush⟩
  rw [parse, read_eq hl hop, Reader.bind_of_ok hkeys, readEnd_eq, if_pos hn]
  have htail : (readTail keys ⟨(pushes keys).reverse ++ [Opcode.small threshold], []⟩).1 = _ :=
    readTail_fst_of_length_ne hnoTail
  rcases hread : readTail keys _ with ⟨read, m⟩
  rw [hread] at htail
  obtain rfl : read = _ := htail
  rfl

end RedeemScript

/-! ### Signatures and scripts -/

open RedeemScript Signature in
/-- **Octets that nobody has checked are looked at only where they are.** Whatever octets are
checked or read as a signature, every place and every range that is asked for is inside, also
where a length among the octets says which one it is. Whatever octets are read as a script, so is
every place and the range of every key, no size is smaller than what is taken from it, and the
keys are over before the rounds are, if 34 octets for each round are no fewer than the script has.
What comes out is what is read, whatever stands behind the octets. -/
theorem looks_stayWithin :
    (∀ bs : Bytes,
      (∃ strict, strictDer? bs = some strict ∧
        (lookStrict bs.length).StaysWithin bs (.ok strict)) ∧
      inspectDer bs = some (ofDer? bs) ∧
        (lookDer bs.length).StaysWithin bs (.ok (ofDer? bs))) ∧
    ∀ bs : Bytes, parse bs ≠ .error .endOfData ∧
      ∀ rounds : Nat, bs.length ≤ 34 * rounds →
        (lookScript rounds bs.length).StaysWithin bs (parse bs) := by
  refine ⟨fun bs => ⟨?_, ?_⟩, fun bs => ⟨fun h => ?_, fun rounds hrounds => ?_⟩⟩
  · obtain ⟨strict, hlook, hcheck⟩ := agree_lookStrict bs
    exact ⟨strict, hcheck, Inspection.staysWithin_iff.2 hlook⟩
  · obtain ⟨read, hlook, hinspect⟩ := agree_lookDer bs
    have hread : ofDer? bs = read := congrArg Option.join hinspect
    rw [hread]
    exact ⟨hinspect, Inspection.staysWithin_iff.2 hlook⟩
  · rcases kind_of_parse_eq_error h with hkind | hkind | hkind | hkind <;> cases hkind
  · exact Inspection.staysWithin_iff.2 (run?_lookScript hrounds)

open RedeemScript Signature in
/-- Behind a script that breaks off after the generator's key another key is pushed, and that is
not looked at: two rounds are enough, and the second one ends where the script does. -/
theorem looks_stayWithin_brokenOff : ∃ key : PublicKey, key.point = generator ∧
    let bs : Bytes := Opcode.small 1 :: pushes [key]
    let m : Memory bs := .filled bs Opcode.pushKey
    bs.length ≤ 34 * 2 ∧ (∀ q ∈ (lookScript 2 bs.length).queries m, q.Within bs.length) ∧
      (lookScript 2 bs.length).outcome m = some (.error (.layout .surplus)) ∧
      m.octetAt bs.length = Opcode.pushKey := by
  obtain ⟨key, -, hpoint⟩ := PublicKey.exists_ofPoint generator_onCurve
  refine ⟨key, hpoint, ?_⟩
  intro bs m
  have hlength : bs.length = 35 := by
    have hkey : key.bytes.length = 33 := key.encoding.length_toList
    simp [bs, pushes, hkey]
  have hrounds : bs.length ≤ 34 * 2 := by omega
  have hparse : parse bs = .error (.layout .surplus) :=
    parse_pushes (by decide) (by decide) (List.cons_ne_nil _ _) (by decide : 1 ≤ maxKeys)
  obtain ⟨-, hlook⟩ := looks_stayWithin.2 bs
  obtain ⟨hwithin, houtcome⟩ := hlook 2 hrounds m
  rw [hparse] at houtcome
  refine ⟨hrounds, hwithin, houtcome, ?_⟩
  simp [m, Memory.filled]

end WitnessSigning
