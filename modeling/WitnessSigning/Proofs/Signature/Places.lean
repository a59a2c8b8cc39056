import WitnessSigning.Proofs.Octets.Inspection
import WitnessSigning.Proofs.Signature.Der

/-!
# Where reading a signature looks

The lengths in an encoding are octets of it, so whoever wrote it chose them, and they say where
the next look goes. The check of the layout asks one thing after another, and what it found out so
far is all that keeps the next look inside: that there are at least eight octets for the first
four places, that the first integer ends before the last octet for the length behind it, and that
both lengths add up to the whole for everything else, also for the second octet of an integer,
which is looked at only if it has two.

`WitnessSigning.Signature.lookStrict` and `WitnessSigning.Signature.lookDer` ask for the same
places in the same order as the check and the reading do, as inspections. They agree with these
step by step (`WitnessSigning.Signature.Agree`), so neither of them ever looks outside
(`WitnessSigning.Signature.agree_lookStrict`, `WitnessSigning.Signature.agree_lookDer`).
-/

namespace WitnessSigning.Signature

open Inspection

/-! ### The inspections -/

/-- Whether the integer of the given place and length is positive and in the fewest octets. -/
def lookMinimal (place length : Nat) : Inspection Bool := do
  if length = 0 then
    return false
  else
    let first ← octet place
    if 0x80 ≤ first then
      return false
    else if 1 < length ∧ first = 0 then
      let second ← octet (place + 1)
      return 0x80 ≤ second
    else
      return true

/-- **The check of the whole layout** of `size` octets, place by place. -/
def lookStrict (size : Nat) : Inspection Bool := do
  if size < 8 ∨ 72 < size then
    return false
  else if (← octet 0) ≠ 0x30 then
    return false
  else if (← octet 1).toNat ≠ (← difference size 2) then
    return false
  else
    let r := (← octet 3).toNat
    if size ≤ 5 + r then
      return false
    else
      let s := (← octet (5 + r)).toNat
      if r + s + 6 ≠ size then
        return false
      else if (← octet 2) ≠ 2 then
        return false
      else if !(← lookMinimal 4 r) then
        return false
      else if (← octet (r + 4)) ≠ 2 then
        return false
      else
        lookMinimal (r + 6) s

/-- The place and number of the digits of an integer, behind the zeros in front of them. -/
def lookDigits (place : Nat) : Nat → Inspection (Nat × Nat)
  | 0 => return (place, 0)
  | length + 1 => do
    if (← octet place) = 0 then
      lookDigits (place + 1) length
    else
      return (place, length + 1)

/-- The number of the integer of the given place and length, if it has at most 256 bits. -/
def lookNumber (place length : Nat) : Inspection (Option (BitVec 256)) := do
  let (start, count) ← lookDigits place length
  if count ≤ 32 then
    let digits ← range start count
    return some (BitVec.ofNat 256 (ofBigEndian digits))
  else
    return none

/-- **Reads a signature** from `size` octets: the check first, then both lengths again, and each
integer as a range and digit by digit. -/
def lookDer (size : Nat) : Inspection (Option Signature) := do
  if ← lookStrict size then
    let r := (← octet 3).toNat
    let s := (← octet (5 + r)).toNat
    let _ ← range 4 r
    let rNumber ← lookNumber 4 r
    let _ ← range (6 + r) s
    let sNumber ← lookNumber (6 + r) s
    return do
      let r ← rNumber
      let s ← sNumber
      return { r, s }
  else
    return none

/-! ### Step by step -/

variable {α β : Type} {bs : Bytes}

/-- **An inspection and a check agree** on octets if they come to the same value: the inspection
stays within the octets, and the check never looks outside. -/
def Agree (bs : Bytes) (p : Inspection α) (check : Option α) : Prop :=
  ∃ a, p.run? bs = some (.ok a) ∧ check = some a

namespace Agree

theorem value (a : α) : Agree bs (pure a) (some a) :=
  ⟨a, rfl, rfl⟩

theorem ite {c : Prop} [Decidable c] {p p' : Inspection α} {check check' : Option α}
    (h : c → Agree bs p check) (h' : ¬c → Agree bs p' check') :
    Agree bs (if c then p else p') (if c then check else check') := by
  by_cases hc : c
  · rw [if_pos hc, if_pos hc]
    exact h hc
  · rw [if_neg hc, if_neg hc]
    exact h' hc

theorem bind {p : Inspection α} {check : Option α} {f : α → Inspection β} {g : α → Option β}
    (h : Agree bs p check) (hnext : ∀ a, check = some a → Agree bs (f a) (g a)) :
    Agree bs (p >>= f) (check >>= g) := by
  obtain ⟨a, ha, rfl⟩ := h
  obtain ⟨b, hb, hg⟩ := hnext a rfl
  exact ⟨b, (run?_bind_of_ok ha).trans hb, hg⟩

/-- A look at a place that there is. -/
theorem octet {place : Nat} (h : place < bs.length) :
    Agree bs (Inspection.octet place) bs[place]? :=
  ⟨bs[place], run?_octet (List.getElem?_eq_getElem h), List.getElem?_eq_getElem h⟩

/-- What is asked for besides is not seen in the check. -/
theorem besides {p : Inspection α} {a : α} (h : p.run? bs = some (.ok a)) {f : α → Inspection β}
    {check : Option β} (hnext : Agree bs (f a) check) : Agree bs (p >>= f) check := by
  obtain ⟨b, hb, hcheck⟩ := hnext
  exact ⟨b, (run?_bind_of_ok h).trans hb, hcheck⟩

end Agree

/-! ### No look falls outside -/

/-- The second octet of an integer is looked at only if there is one. -/
theorem agree_lookMinimal {place length : Nat} (h : place + length ≤ bs.length) :
    Agree bs (lookMinimal place length) (minimalAt? bs place length) := by
  rw [lookMinimal, minimalAt?]
  refine .ite (fun _ => .value _) fun hpos => ?_
  refine .bind (.octet (by omega)) fun first _ => ?_
  refine .ite (fun _ => .value _) fun _ => ?_
  refine .ite (fun htwo => ?_) fun _ => .value _
  exact .bind (.octet (by omega)) fun second _ => .value _

/-- **The check of the layout never looks outside.** -/
theorem agree_lookStrict (bs : Bytes) : Agree bs (lookStrict bs.length) (strictDer? bs) := by
  rw [lookStrict, strictDer?]
  refine .ite (fun _ => .value _) fun hsize => ?_
  refine .bind (.octet (by omega)) fun a _ => .ite (fun _ => .value _) fun _ => ?_
  refine .bind (.octet (by omega)) fun t _ => .besides (run?_difference (by omega)) ?_
  refine .ite (fun _ => .value _) fun _ => ?_
  -- from here on the lengths in the encoding say where to look
  refine .bind (.octet (by omega)) fun d _ => .ite (fun _ => .value _) fun hr => ?_
  refine .bind (.octet (by omega)) fun f _ => .ite (fun _ => .value _) fun hs => ?_
  refine .bind (.octet (by omega)) fun c _ => .ite (fun _ => .value _) fun _ => ?_
  refine .bind (agree_lookMinimal (by omega)) fun r _ => .ite (fun _ => .value _) fun _ => ?_
  refine .bind (.octet (by omega)) fun e _ => .ite (fun _ => .value _) fun _ => ?_
  exact agree_lookMinimal (by omega)

/-- The places of one check in their order: a second integer of two octets, the first
of them zero, has both looked at. -/
example :
    let bs : Bytes := [0x30, 7, 2, 1, 0, 2, 2, 0, 0x80]
    (lookStrict bs.length).queries (Memory.filled bs 0xff) =
      [.octet 0, .octet 1, .difference 9 2, .octet 3, .octet 6, .octet 2, .octet 4, .octet 5,
        .octet 7, .octet 8] := by
  decide

/-- **What passes the check** is as long as the two lengths in it say. -/
theorem exists_lengths_of_strictDer? (h : strictDer? bs = some true) :
    ∃ r s : UInt8, bs[3]? = some r ∧ bs[5 + r.toNat]? = some s ∧
      bs.length = r.toNat + s.toNat + 6 := by
  obtain ⟨a, t, c, d, r, e, f, s, rfl, hr⟩ := exists_layout h
  obtain ⟨⟨-, -, -, -, -, hs⟩, -⟩ := (strictDer?_layout hr).1 h
  refine ⟨d, f, rfl, ?_, ?_⟩
  · rw [hr]
    simp [Nat.add_comm 5]
  · rw [hr, hs]
    simp only [List.length_cons, List.length_append]
    omega

/-- **The zeros in front of an integer** are passed inside of it, and its digits
are what is left. -/
theorem exists_run?_lookDigits {place length : Nat} (h : place + length ≤ bs.length) :
    ∃ start count, (lookDigits place length).run? bs = some (.ok (start, count)) ∧
      start + count ≤ bs.length ∧
        (bs.drop start).take count = ((bs.drop place).take length).dropWhile (· == 0) := by
  induction length generalizing place with
  | zero => exact ⟨place, 0, rfl, h, by rw [List.take_zero, List.dropWhile_nil]⟩
  | succ length ih =>
    have hplace : place < bs.length := by omega
    have hfirst : (bs.drop place).take (length + 1) =
        bs[place] :: (bs.drop (place + 1)).take length := by
      rw [List.drop_eq_getElem_cons hplace, List.take_succ_cons]
    rw [lookDigits, run?_bind_of_ok (run?_octet (List.getElem?_eq_getElem hplace)), hfirst]
    by_cases hzero : bs[place] = 0
    · rw [if_pos hzero, hzero, dropWhile_zero_cons]
      exact ih (by omega)
    · rw [if_neg hzero, List.dropWhile_cons_of_neg (by simpa using hzero), ← hfirst]
      exact ⟨place, length + 1, rfl, h, rfl⟩

theorem run?_lookNumber {place length : Nat} (h : place + length ≤ bs.length) :
    (lookNumber place length).run? bs =
      some (.ok (derNumber? ((bs.drop place).take length))) := by
  obtain ⟨start, count, hdigits, hwithin, heq⟩ := exists_run?_lookDigits h
  have hcount : (((bs.drop place).take length).dropWhile (· == 0)).length = count := by
    rw [← heq, List.length_take, List.length_drop]
    omega
  rw [lookNumber, run?_bind_of_ok hdigits, derNumber?]
  dsimp only
  rw [hcount]
  split
  · rw [run?_bind_of_ok (run?_range hwithin), heq]
    rfl
  · rfl

/-- **Reading a signature never looks outside.** -/
theorem agree_lookDer (bs : Bytes) : Agree bs (lookDer bs.length) (inspectDer bs) := by
  rw [lookDer, inspectDer]
  refine .bind (agree_lookStrict bs) fun strict hstrict => .ite (fun htrue => ?_) fun _ => .value _
  rw [htrue] at hstrict
  obtain ⟨r, s, hr, hs, hsum⟩ := exists_lengths_of_strictDer? hstrict
  refine .bind (.octet (by omega)) fun r' hr' => ?_
  obtain rfl : r = r' := Option.some.inj (hr.symm.trans hr')
  refine .bind (.octet (by omega)) fun s' hs' => ?_
  obtain rfl : s = s' := Option.some.inj (hs.symm.trans hs')
  -- both integers end where the lengths say, and no later than the encoding
  have hrRange : 4 + r.toNat ≤ bs.length := by omega
  have hsRange : 6 + r.toNat + s.toNat ≤ bs.length := by omega
  refine .besides (run?_range hrRange) (.besides (run?_lookNumber hrRange) ?_)
  refine .besides (run?_range hsRange) (.besides (run?_lookNumber hsRange) ?_)
  have hrTaken : range? bs 4 r.toNat = some ((bs.drop 4).take r.toNat) := if_pos hrRange
  have hsTaken : range? bs (6 + r.toNat) s.toNat =
      some ((bs.drop (6 + r.toNat)).take s.toNat) := if_pos hsRange
  dsimp only
  rw [hrTaken, hsTaken]
  exact .value _

end WitnessSigning.Signature
