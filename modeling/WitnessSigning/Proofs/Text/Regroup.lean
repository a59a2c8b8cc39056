import Mathlib.Data.List.Induction
import Mathlib.Data.Nat.Bitwise
import Mathlib.Data.Nat.Digits.Lemmas
import Mathlib.Tactic.IntervalCases
import WitnessSigning.Proofs.Text.Radix
import WitnessSigning.Text.Regroup

/-!
# Regrouping is counting

Values of a width are the digits of a number, and regrouping writes the digits of that number in
another base, shifted by the zeros that fill the last digit (`WitnessSigning.Regroup.Fills`). The
accumulator holds the number only as far as its 32 bits go. That is enough, because a value is
written from the lowest bits that wait, and never as many as 32 of them do
(`WitnessSigning.Regroup.State.Holds`).

With filling, regrouping finds the one list that fills up with the values
(`WitnessSigning.Regroup.regroup?_fill_eq_some_iff`). Without, it finds the list that the values
fill up with (`WitnessSigning.Regroup.regroup?_exact_eq_some_iff`), so the second is the way back
from the first and takes nothing else (`WitnessSigning.Regroup.regroup?_exact_eq_some_iff_fill`).
-/

namespace WitnessSigning.Regroup

open Radix

/-! ### Values as a number -/

/-- The number whose digits are values of this width. -/
def number (width : Nat) (values : Bytes) : Nat :=
  value (2 ^ width) (values.reverse.map UInt8.toNat)

theorem number_append_singleton (width : Nat) (values : Bytes) (v : UInt8) :
    number width (values ++ [v]) = v.toNat + 2 ^ width * number width values := by
  rw [number, List.reverse_append]
  rfl

/-- The number has as many bits as its values together. -/
theorem number_lt {width : Nat} {values : Bytes} (hvalues : ∀ v ∈ values, v.toNat < 2 ^ width) :
    number width values < 2 ^ (width * values.length) := by
  induction values using List.reverseRecOn with
  | nil => exact Nat.one_pos
  | append_singleton values v ih =>
    have hv : v.toNat < 2 ^ width := hvalues v (List.mem_append_right _ (List.mem_singleton_self v))
    have hlt := ih fun w hw => hvalues w (List.mem_append_left _ hw)
    rw [number_append_singleton, List.length_append, List.length_singleton, Nat.mul_succ,
      Nat.pow_add]
    calc v.toNat + 2 ^ width * number width values
        < 2 ^ width * (number width values + 1) := by rw [Nat.mul_succ]; omega
      _ ≤ 2 ^ width * 2 ^ (width * values.length) := Nat.mul_le_mul_left _ hlt
      _ = 2 ^ (width * values.length) * 2 ^ width := Nat.mul_comm _ _

/-- **As many values of one width** are determined by their number. -/
theorem number_injective {width : Nat} (hw : 0 < width) {vs ws : Bytes}
    (hvs : ∀ v ∈ vs, v.toNat < 2 ^ width) (hws : ∀ w ∈ ws, w.toNat < 2 ^ width)
    (hlength : vs.length = ws.length) (h : number width vs = number width ws) : vs = ws := by
  have hdigits : ∀ {us : Bytes}, (∀ u ∈ us, u.toNat < 2 ^ width) →
      ∀ d ∈ us.reverse.map UInt8.toNat, d < 2 ^ width := by
    intro us hus d hd
    obtain ⟨u, hu, rfl⟩ := List.mem_map.1 hd
    exact hus u (List.mem_reverse.1 hu)
  rw [number, number, value_eq_ofDigits, value_eq_ofDigits] at h
  have hmap := Nat.ofDigits_inj_of_len_eq (Nat.one_lt_two_pow hw.ne') (by simpa using hlength)
    (hdigits hvs) (hdigits hws) h
  exact List.reverse_injective (List.map_injective_iff.2 (fun _ _ => UInt8.toNat_inj.1) hmap)

namespace State

variable {source target : Nat}

/-! ### The accumulator -/

section Accumulator

variable {acc : UInt32} {n waiting : Nat}

theorem toNat_lowest (ht : target ≤ 8) (bits : UInt32) :
    (lowest target bits).toNat = bits.toNat % 2 ^ target := by
  have hmask : ((1 <<< UInt32.ofNat target) - 1 : UInt32).toNat = 2 ^ target - 1 := by
    interval_cases target <;> rfl
  have hlt : bits.toNat % 2 ^ target < 2 ^ 8 :=
    (Nat.mod_lt _ (Nat.two_pow_pos _)).trans_le (Nat.pow_le_pow_right (by decide) ht)
  rw [lowest, UInt32.toNat_toUInt8, UInt32.toNat_and, hmask, Nat.and_two_pow_sub_one_eq_mod,
    Nat.mod_eq_of_lt hlt]

/-- The accumulator is never shifted by more than its bits. -/
theorem toNat_ofNat_mod {k : Nat} (hk : k < 32) : (UInt32.ofNat k).toNat % 32 = k := by
  rw [UInt32.toNat_ofNat_of_lt' (by simp only [UInt32.size]; omega), Nat.mod_eq_of_lt hk]

/-- Reading a value appends a digit to the number in the accumulator. -/
theorem toNat_shiftLeft_or (hs : source ≤ 8) (hacc : acc.toNat = n % 2 ^ 32) {v : UInt8}
    (hv : v.toNat < 2 ^ source) :
    ((acc <<< UInt32.ofNat source) ||| v.toUInt32).toNat = (v.toNat + 2 ^ source * n) % 2 ^ 32 := by
  have hv' : v.toNat < 2 ^ 32 := hv.trans_le (Nat.pow_le_pow_right (by decide) (by omega))
  rw [UInt32.toNat_or, UInt32.toNat_shiftLeft, toNat_ofNat_mod (by omega), hacc,
    UInt8.toNat_toUInt32, Nat.add_comm, Nat.two_pow_add_eq_or_of_lt hv, Nat.or_mod_two_pow,
    Nat.shiftLeft_eq, Nat.mul_comm (2 ^ source), Nat.mod_mul_mod, Nat.mod_eq_of_lt hv']

/-- **A digit is written** from the number in front of the bits that wait after it.
That the number may be too large for the accumulator does not show, as the digit
and what waits are within its bits. -/
theorem toNat_lowest_shiftRight (ht : 0 < target) (ht' : target ≤ 8) (hacc : acc.toNat = n % 2 ^ 32)
    (hw : waiting + target ≤ 32) :
    (lowest target (acc >>> UInt32.ofNat waiting)).toNat = n / 2 ^ waiting % 2 ^ target := by
  rw [toNat_lowest ht', UInt32.toNat_shiftRight, toNat_ofNat_mod (by omega), hacc,
    Nat.shiftRight_eq_div_pow]
  refine Nat.eq_of_testBit_eq fun i => ?_
  rw [Nat.testBit_mod_two_pow, Nat.testBit_mod_two_pow, Nat.testBit_div_two_pow,
    Nat.testBit_div_two_pow, Nat.testBit_mod_two_pow]
  by_cases hi : i < target
  · -- a bit of the digit, which the accumulator still holds
    simp [show i + waiting < 32 by omega]
  · simp [hi]

/-- The last digit is the bits that wait, with zeros behind them. -/
theorem toNat_lowest_shiftLeft (ht : target ≤ 8) (hacc : acc.toNat = n % 2 ^ 32)
    (hw : waiting < target) :
    (lowest target (acc <<< UInt32.ofNat (target - waiting))).toNat =
      2 ^ (target - waiting) * (n % 2 ^ waiting) := by
  rw [toNat_lowest ht, UInt32.toNat_shiftLeft, toNat_ofNat_mod (by omega), hacc, Nat.shiftLeft_eq,
    Nat.mod_mod_of_dvd _ (pow_dvd_pow 2 (by omega)), Nat.mul_comm]
  calc 2 ^ (target - waiting) * (n % 2 ^ 32) % 2 ^ target
      = 2 ^ (target - waiting) * (n % 2 ^ 32) % (2 ^ (target - waiting) * 2 ^ waiting) := by
        rw [← Nat.pow_add, Nat.sub_add_cancel hw.le]
    _ = 2 ^ (target - waiting) * (n % 2 ^ waiting) := by
        rw [Nat.mul_mod_mul_left, Nat.mod_mod_of_dvd _ (pow_dvd_pow 2 (by omega))]

end Accumulator

/-! ### Reading and writing -/

/-- **What holds between two values**, when those in `done` have been read: the
written values are the digits of their number but for the bits that wait, and the
accumulator has the end of that number. -/
structure Holds (source target : Nat) (done : Bytes) (s : State) : Prop where
  toNat_acc : s.acc.toNat = number source done % 2 ^ 32
  length : source * done.length = target * s.written.length + s.waiting
  lt_target : ∀ d ∈ s.written, d.toNat < 2 ^ target
  number_written : number target s.written.reverse = number source done / 2 ^ s.waiting

theorem holds_empty (source target : Nat) : Holds source target [] empty where
  toNat_acc := rfl
  length := rfl
  lt_target := nofun
  number_written := (Nat.zero_div _).symm

variable {done : Bytes} {s : State}

/-- Writing a value takes it from the bits that wait. -/
theorem Holds.writeOne (ht : 0 < target) (ht' : target ≤ 8) (h : Holds source target done s)
    (hle : target ≤ s.waiting) (hw : s.waiting ≤ 32) :
    Holds source target done (s.writeOne target) := by
  obtain ⟨k, hk⟩ : ∃ k, s.waiting = k + target := ⟨s.waiting - target, by omega⟩
  have hdigit : (lowest target (s.acc >>> UInt32.ofNat k)).toNat =
      number source done / 2 ^ k % 2 ^ target :=
    toNat_lowest_shiftRight ht ht' h.toNat_acc (by omega)
  rw [State.writeOne, hk, Nat.add_sub_cancel]
  refine ⟨h.toNat_acc, ?_, List.forall_mem_cons.2 ⟨?_, h.lt_target⟩, ?_⟩
  · have hlength := h.length
    rw [List.length_cons, Nat.mul_succ]
    dsimp only
    omega
  · rw [hdigit]
    exact Nat.mod_lt _ (Nat.two_pow_pos _)
  · rw [List.reverse_cons, number_append_singleton, hdigit, h.number_written, hk, Nat.pow_add,
      ← Nat.div_div_eq_div_mul, Nat.mod_add_div]

/-- **Writing** uses up bits that wait, as long as there are enough. -/
theorem Holds.write (ht : 0 < target) (ht' : target ≤ 8) {rounds : Nat}
    (h : Holds source target done s) (hrounds : rounds * target ≤ s.waiting) (hw : s.waiting ≤ 32) :
    Holds source target done (s.write target rounds) ∧
      (s.write target rounds).waiting = s.waiting - rounds * target := by
  induction rounds generalizing s with
  | zero => exact ⟨h, by rw [Nat.zero_mul]; rfl⟩
  | succ rounds ih =>
    rw [Nat.succ_mul] at hrounds ⊢
    have hwaiting : (s.writeOne target).waiting = s.waiting - target := rfl
    obtain ⟨hrest, hrest'⟩ := ih (h.writeOne ht ht' (by omega) hw) (by omega) (by omega)
    exact ⟨hrest, by rw [State.write, hrest']; omega⟩

/-- A value is read if it fits its width. -/
theorem exists_read?_iff {v : UInt8} :
    (∃ s', s.read? source target v = some s') ↔ v.toNat < 2 ^ source := by
  rw [← Nat.div_eq_zero_iff_lt (Nat.two_pow_pos source), ← Nat.shiftRight_eq_div_pow, State.read?]
  split
  · next hv => exact iff_of_true ⟨_, rfl⟩ hv
  · next hv => exact iff_of_false (by rintro ⟨s', h⟩; cases h) hv

/-- **Reading a value** moves it into the accumulator, and no more bits wait
afterwards than before. -/
theorem Holds.read? (hs : source ≤ 8) (ht : 0 < target) (ht' : target ≤ 8)
    (h : Holds source target done s) (hw : s.waiting < target) {v : UInt8} {s' : State}
    (hread : s.read? source target v = some s') :
    Holds source target (done ++ [v]) s' ∧ s'.waiting < target := by
  have hv : v.toNat < 2 ^ source := exists_read?_iff.1 ⟨s', hread⟩
  rw [State.read?] at hread
  split at hread
  · cases hread
    have hmoved : Holds source target (done ++ [v]) { s with
        acc := (s.acc <<< UInt32.ofNat source) ||| v.toUInt32
        waiting := s.waiting + source } := by
      refine ⟨?_, ?_, h.lt_target, ?_⟩
      · rw [number_append_singleton]
        exact toNat_shiftLeft_or hs h.toNat_acc hv
      · have hlength := h.length
        rw [List.length_append, List.length_singleton, Nat.mul_succ]
        dsimp only
        omega
      · rw [number_append_singleton, h.number_written, Nat.add_comm s.waiting, Nat.pow_add,
          ← Nat.div_div_eq_div_mul, Nat.add_mul_div_left _ _ (Nat.two_pow_pos _),
          Nat.div_eq_of_lt hv, Nat.zero_add]
    obtain ⟨hrest, hwaiting⟩ :=
      hmoved.write ht ht' (Nat.div_mul_le_self (s.waiting + source) target)
      (by dsimp only; omega)
    refine ⟨hrest, ?_⟩
    rw [hwaiting, Nat.mul_comm, ← Nat.mod_eq_sub]
    exact Nat.mod_lt _ ht
  · cases hread

/-- **A whole run** reads values that fit their width. -/
theorem Holds.foldlM_read? (hs : source ≤ 8) (ht : 0 < target) (ht' : target ≤ 8)
    (h : Holds source target done s) (hw : s.waiting < target) {values : Bytes} {s' : State}
    (hrun : values.foldlM (State.read? source target) s = some s') :
    (∀ v ∈ values, v.toNat < 2 ^ source) ∧ Holds source target (done ++ values) s' ∧
      s'.waiting < target := by
  induction values generalizing done s with
  | nil =>
    cases hrun
    exact ⟨nofun, by rwa [List.append_nil], hw⟩
  | cons v values ih =>
    rw [List.foldlM_cons] at hrun
    obtain ⟨s₁, hread, hrun⟩ := Option.bind_eq_some_iff.1 hrun
    obtain ⟨h₁, hw₁⟩ := h.read? hs ht ht' hw hread
    obtain ⟨hfit, h', hw'⟩ := ih h₁ hw₁ hrun
    rw [List.append_assoc] at h'
    exact ⟨List.forall_mem_cons.2 ⟨exists_read?_iff.1 ⟨s₁, hread⟩, hfit⟩, h', hw'⟩

/-- Values that fit their width are all read. -/
theorem exists_foldlM_read? {values : Bytes} (hfit : ∀ v ∈ values, v.toNat < 2 ^ source)
    (s : State) :
    ∃ s', values.foldlM (State.read? source target) s = some s' := by
  induction values generalizing s with
  | nil => exact ⟨s, rfl⟩
  | cons v values ih =>
    obtain ⟨hv, hfit⟩ := List.forall_mem_cons.1 hfit
    obtain ⟨s₁, hread⟩ := exists_read?_iff.2 hv
    obtain ⟨s', hrun⟩ := ih hfit s₁
    exact ⟨s', by rw [List.foldlM_cons]; exact Option.bind_eq_some_iff.2 ⟨s₁, hread, hrun⟩⟩

/-- **The state after all values.** -/
theorem holds_of_foldlM (hs : source ≤ 8) (ht : 0 < target) (ht' : target ≤ 8) {values : Bytes}
    (hrun : values.foldlM (State.read? source target) empty = some s) :
    (∀ v ∈ values, v.toNat < 2 ^ source) ∧ Holds source target values s ∧ s.waiting < target :=
  (holds_empty source target).foldlM_read? hs ht ht' ht hrun

end State

/-! ### Filling up -/

/-- **Values of one width fill up with zeros to values of another**: these are long enough for all
bits but not longer, and their number is the same but for zeros at the end. -/
structure Fills (source target : Nat) (values groups : Bytes) : Prop where
  lt_source : ∀ v ∈ values, v.toNat < 2 ^ source
  lt_target : ∀ d ∈ groups, d.toNat < 2 ^ target
  exists_fill : ∃ fill < target, target * groups.length = source * values.length + fill ∧
    number target groups = 2 ^ fill * number source values

namespace Fills

variable {source target : Nat} {values groups : Bytes}

/-- How many values there are with so many bits is determined by how many are left over. -/
theorem eq_of_mul_add_eq {width m n j k : Nat} (hj : j < width) (hk : k < width)
    (h : width * m + j = width * n + k) : m = n ∧ j = k := by
  have hmod := congrArg (· % width) h
  have hdiv := congrArg (· / width) h
  simp only [Nat.mul_add_mod, Nat.mod_eq_of_lt, hj, hk] at hmod
  simp only [Nat.mul_add_div (Nat.zero_lt_of_lt hj), Nat.div_eq_of_lt, hj, hk, Nat.add_zero] at hdiv
  exact ⟨hdiv, hmod⟩

/-- Values fill up in one way only. -/
theorem right_unique (ht : 0 < target) {groups' : Bytes} (h : Fills source target values groups)
    (h' : Fills source target values groups') : groups = groups' := by
  obtain ⟨fill, hlt, hlength, hnumber⟩ := h.exists_fill
  obtain ⟨fill', hlt', hlength', hnumber'⟩ := h'.exists_fill
  have hsum : target * groups.length + fill' = target * groups'.length + fill := by omega
  obtain ⟨hlengths, rfl⟩ := eq_of_mul_add_eq hlt' hlt hsum
  exact number_injective ht h.lt_target h'.lt_target hlengths (hnumber.trans hnumber'.symm)

end Fills

/-- The bits that wait are the end of the number. -/
theorem State.Holds.toNat_rest {source target : Nat} (ht' : target ≤ 8) {values : Bytes} {s : State}
    (h : State.Holds source target values s) (hw : s.waiting < target) :
    (s.rest target).toNat = 2 ^ (target - s.waiting) * (number source values % 2 ^ s.waiting) :=
  State.toNat_lowest_shiftLeft ht' h.toNat_acc hw

/-- The last value is zero if the bits that wait are. -/
theorem State.Holds.rest_eq_zero_iff {source target : Nat} (ht' : target ≤ 8) {values : Bytes}
    {s : State} (h : State.Holds source target values s) (hw : s.waiting < target) :
    s.rest target = 0 ↔ number source values % 2 ^ s.waiting = 0 := by
  rw [← UInt8.toNat_inj, h.toNat_rest ht' hw, UInt8.toNat_zero, Nat.mul_eq_zero,
    or_iff_right (Nat.two_pow_pos _).ne']

/-- What is written at the end, with the bits that wait filled up with zeros. -/
theorem State.Holds.fills {source target : Nat} (ht' : target ≤ 8) {values : Bytes} {s : State}
    (hfit : ∀ v ∈ values, v.toNat < 2 ^ source) (h : State.Holds source target values s)
    (hw : s.waiting < target) :
    Fills source target values
      (if 0 < s.waiting then s.rest target :: s.written else s.written).reverse := by
  have hnumber := Nat.div_add_mod (number source values) (2 ^ s.waiting)
  rw [← h.number_written] at hnumber
  split
  · next hpos =>
    have hrest := h.toNat_rest ht' hw
    have hpow : 2 ^ target = 2 ^ (target - s.waiting) * 2 ^ s.waiting := by
      rw [← Nat.pow_add, Nat.sub_add_cancel hw.le]
    have hlt : (s.rest target).toNat < 2 ^ target := by
      rw [hrest, hpow]
      exact Nat.mul_lt_mul_of_pos_left (Nat.mod_lt _ (Nat.two_pow_pos _)) (Nat.two_pow_pos _)
    refine ⟨hfit, ?_, target - s.waiting, by omega, ?_, ?_⟩
    · intro d hd
      exact (List.forall_mem_cons (p := (·.toNat < 2 ^ target))).2 ⟨hlt, h.lt_target⟩ d
        (List.mem_reverse.1 hd)
    · have hlength := h.length
      rw [List.length_reverse, List.length_cons, Nat.mul_succ]
      omega
    · calc number target (s.rest target :: s.written).reverse
          = (s.rest target).toNat + 2 ^ target * number target s.written.reverse := by
            rw [List.reverse_cons, number_append_singleton]
        _ = 2 ^ (target - s.waiting) * (2 ^ s.waiting * number target s.written.reverse +
              number source values % 2 ^ s.waiting) := by
            rw [hrest, hpow]
            ring
        _ = 2 ^ (target - s.waiting) * number source values := by rw [hnumber]
  · next hpos =>
    obtain hzero : s.waiting = 0 := by omega
    refine ⟨hfit, fun d hd => h.lt_target d (List.mem_reverse.1 hd), 0, by omega, ?_, ?_⟩
    · rw [List.length_reverse, h.length, hzero, Nat.add_zero]
    · rw [h.number_written, hzero, pow_zero, Nat.div_one, Nat.one_mul]

/-- What is written at the end, if the bits that wait can be left out. -/
theorem State.Holds.fills_iff {source target : Nat} (hs : 0 < source) (hle : source ≤ target)
    (ht' : target ≤ 8) {groups values : Bytes} {s : State}
    (hfit : ∀ v ∈ groups, v.toNat < 2 ^ source) (h : State.Holds source target groups s)
    (hw : s.waiting < target) :
    (s.waiting < source ∧ s.rest target = 0) ∧ s.written.reverse = values ↔
      Fills target source values groups := by
  have hnumber := Nat.div_add_mod (number source groups) (2 ^ s.waiting)
  rw [← h.number_written] at hnumber
  rw [h.rest_eq_zero_iff ht' hw]
  constructor
  · rintro ⟨⟨hlt, hzero⟩, rfl⟩
    refine ⟨fun d hd => h.lt_target d (List.mem_reverse.1 hd), hfit, s.waiting, hlt, ?_, ?_⟩
    · rw [List.length_reverse, h.length]
    · rw [← hnumber, hzero, Nat.add_zero]
  · rintro ⟨hvalues, -, fill, hlt, hlength, hgroups⟩
    -- The bits that wait are those that were filled in, since either are fewer than one value.
    obtain ⟨hlengths, rfl⟩ :=
      Fills.eq_of_mul_add_eq (hlt.trans_le hle) hw (hlength.symm.trans h.length)
    have hzero : number source groups % 2 ^ s.waiting = 0 := by rw [hgroups, Nat.mul_mod_right]
    have hwritten : number target s.written.reverse = number target values := by
      rw [h.number_written, hgroups, Nat.mul_div_cancel_left _ (Nat.two_pow_pos _)]
    refine ⟨⟨hlt, hzero⟩, ?_⟩
    exact number_injective (hs.trans_le hle) (fun d hd => h.lt_target d (List.mem_reverse.1 hd))
      hvalues (by rw [List.length_reverse, hlengths]) hwritten

/-! ### Regrouping -/

section Regroup

variable {source target : Nat} {values groups : Bytes}

/-- **Regrouping with filling** finds the values that the given ones fill up to. -/
theorem regroup?_fill_eq_some_iff (hs : source ≤ 8) (ht : 0 < target) (ht' : target ≤ 8) :
    regroup? source target true values = some groups ↔ Fills source target values groups := by
  have hregroup : ∀ {s : State}, values.foldlM (State.read? source target) State.empty = some s →
      regroup? source target true values =
        some (if 0 < s.waiting then s.rest target :: s.written else s.written).reverse := by
    intro s hrun
    rw [regroup?, hrun]
    rfl
  constructor
  · intro h
    obtain ⟨s, hrun, -⟩ := Option.bind_eq_some_iff.1 h
    obtain ⟨hfit, hholds, hw⟩ := State.holds_of_foldlM hs ht ht' hrun
    rw [hregroup hrun] at h
    cases h
    exact hholds.fills ht' hfit hw
  · intro h
    obtain ⟨s, hrun⟩ := State.exists_foldlM_read? h.lt_source State.empty
    obtain ⟨hfit, hholds, hw⟩ := State.holds_of_foldlM hs ht ht' hrun
    rw [hregroup hrun, (hholds.fills ht' hfit hw).right_unique ht h]

/-- Without filling, the state after all values tells whether the bits that wait can be left out. -/
theorem regroup?_exact_of_foldlM {s : State}
    (hrun : groups.foldlM (State.read? source target) State.empty = some s) :
    regroup? source target false groups =
      if s.waiting < source ∧ s.rest target = 0 then some s.written.reverse else none := by
  rw [regroup?, hrun]
  dsimp only [Option.bind_eq_bind, Option.bind_some]
  rw [if_neg Bool.false_ne_true]
  rfl

/-- **Regrouping without filling** finds the values that fill up to the given ones,
if the way back is to wider values. -/
theorem regroup?_exact_eq_some_iff (hs : 0 < source) (hle : source ≤ target) (ht' : target ≤ 8) :
    regroup? source target false groups = some values ↔ Fills target source values groups := by
  have hregroup : ∀ {s : State}, groups.foldlM (State.read? source target) State.empty = some s →
      (regroup? source target false groups = some values ↔
        (s.waiting < source ∧ s.rest target = 0) ∧ s.written.reverse = values) := by
    intro s hrun
    rw [regroup?_exact_of_foldlM hrun]
    exact Option.ite_none_right_eq_some.trans (and_congr_right fun _ => Option.some_inj)
  have ht : 0 < target := hs.trans_le hle
  constructor
  · intro h
    obtain ⟨s, hrun, -⟩ := Option.bind_eq_some_iff.1 h
    obtain ⟨hfit, hholds, hw⟩ := State.holds_of_foldlM (hle.trans ht') ht ht' hrun
    exact (hholds.fills_iff hs hle ht' hfit hw).1 ((hregroup hrun).1 h)
  · intro h
    obtain ⟨s, hrun⟩ := State.exists_foldlM_read? h.lt_target State.empty
    obtain ⟨hfit, hholds, hw⟩ := State.holds_of_foldlM (hle.trans ht') ht ht' hrun
    exact (hregroup hrun).2 ((hholds.fills_iff hs hle ht' hfit hw).2 h)

/-- **The way back from wider values** is found from what they are filled up to, and from nothing
else. -/
theorem regroup?_exact_eq_some_iff_fill (hs : 0 < source) (hle : source ≤ target)
    (ht' : target ≤ 8) :
    regroup? source target false groups = some values ↔
      regroup? target source true values = some groups := by
  rw [regroup?_exact_eq_some_iff hs hle ht', regroup?_fill_eq_some_iff ht' hs (hle.trans ht')]

/-- Octets that all fit are filled up. -/
theorem exists_fills (hs : source ≤ 8) (ht : 0 < target) (ht' : target ≤ 8)
    (hfit : ∀ v ∈ values, v.toNat < 2 ^ source) : ∃ groups, Fills source target values groups := by
  obtain ⟨s, hrun⟩ := State.exists_foldlM_read? hfit State.empty
  obtain ⟨-, hholds, hw⟩ := State.holds_of_foldlM hs ht ht' hrun
  exact ⟨_, hholds.fills ht' hfit hw⟩

end Regroup

end WitnessSigning.Regroup
