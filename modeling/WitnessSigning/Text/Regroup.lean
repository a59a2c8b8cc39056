import WitnessSigning.Octets

/-!
# Regrouping bits

A list of values of one bit width is read as one sequence of bits, the most significant bit of
each value first, and written as values of another width. The bits pass through an accumulator of
32 bits: a value that is read moves it up and takes the lowest place, and as soon as enough bits
wait there, a value is written from them (`WitnessSigning.Regroup.State`). At the end the bits
that still wait are either filled with zeros to one more value, or they have to be what such a
filling leaves over: fewer than one value of the old width, and all zeros.
-/

namespace WitnessSigning.Regroup

/-- **What is held between two values**: the accumulator, how many of its lowest bits wait to be
written, and the values written so far, the latest one first. A bit that was written stays in the
accumulator and moves on with the others, until it leaves it at the top. -/
structure State where
  acc : UInt32
  waiting : Nat
  written : Bytes

namespace State

/-- Nothing read and nothing written. -/
def empty : State where
  acc := 0
  waiting := 0
  written := []

/-- The lowest bits as a value of this width. -/
def lowest (width : Nat) (bits : UInt32) : UInt8 :=
  (bits &&& ((1 <<< UInt32.ofNat width) - 1)).toUInt8

/-- Writes one value, from the first of the bits that wait. -/
def writeOne (target : Nat) (s : State) : State :=
  let waiting := s.waiting - target
  { s with waiting, written := lowest target (s.acc >>> UInt32.ofNat waiting) :: s.written }

/-- Writes values one after another. -/
def write (target : Nat) : Nat → State → State
  | 0, s => s
  | rounds + 1, s => write target rounds (s.writeOne target)

/-- **Reads one value**, which has to fit its width, and writes as long as enough bits wait. -/
def read? (source target : Nat) (s : State) (value : UInt8) : Option State :=
  if value.toNat >>> source = 0 then
    let waiting := s.waiting + source
    let acc := (s.acc <<< UInt32.ofNat source) ||| value.toUInt32
    some (write target (waiting / target) { s with acc, waiting })
  else
    none

/-- The bits that wait, with zeros behind them, as one more value. -/
def rest (target : Nat) (s : State) : UInt8 :=
  lowest target (s.acc <<< UInt32.ofNat (target - s.waiting))

end State

/-- **Regrouping**, with zeros to fill the last value or without. -/
def regroup? (source target : Nat) (fill : Bool) (values : Bytes) : Option Bytes := do
  let s ← values.foldlM (State.read? source target) State.empty
  if fill then
    return (if 0 < s.waiting then s.rest target :: s.written else s.written).reverse
  else if s.waiting < source ∧ s.rest target = 0 then
    return s.written.reverse
  else
    none

end WitnessSigning.Regroup
