import WitnessSigning.Error.Message
import WitnessSigning.Key.Public

/-!
# Multisig redeem scripts

A redeem script says that `threshold` of its keys have to sign. It has at most fifteen keys, all
different, in the order in which their signatures will be expected.
`WitnessSigning.RedeemScript.build` checks these conditions one after the other, and
`WitnessSigning.RedeemScript.bytes` lays the script out: the threshold, the keys, their number,
and the operation that checks signatures.

The few operations that occur in scripts are given by their octets; numbers from 1 to 16 have an
operation each.

A draft gathers keys and a threshold one by one and is built when it is complete. Nothing is checked
before that.
-/

namespace WitnessSigning.Opcode

/-- The operation that pushes a number from 1 to 16. -/
def small (n : Nat) : UInt8 :=
  UInt8.ofNat (0x50 + n)

/-- The number that an operation pushes, if it is from 1 to 16. -/
def small? (op : UInt8) : Option Nat :=
  if 0x51 ≤ op.toNat ∧ op.toNat ≤ 0x60 then some (op.toNat - 0x50) else none

/-- Pushes the 33 octets of a key. -/
def pushKey : UInt8 := 0x21

/-- Copies the top of the stack. -/
def dup : UInt8 := 0x76

/-- Fails unless two values are equal. -/
def equalVerify : UInt8 := 0x88

/-- Replaces the top of the stack by its short hash. -/
def hash160 : UInt8 := 0xa9

/-- Checks one signature. -/
def checkSig : UInt8 := 0xac

/-- Checks several signatures. -/
def checkMultisig : UInt8 := 0xae

end WitnessSigning.Opcode

namespace WitnessSigning

/-- **A redeem script**: `threshold` of `keys` have to sign. -/
structure RedeemScript where
  keys : List PublicKey
  threshold : Nat
  one_le_threshold : 1 ≤ threshold
  threshold_le : threshold ≤ keys.length
  length_le : keys.length ≤ maxKeys
  nodup : keys.Nodup

namespace RedeemScript

/-- Redeem scripts are equal as soon as their keys and thresholds are. -/
theorem ext_content {a b : RedeemScript} (hk : a.keys = b.keys) (ht : a.threshold = b.threshold) :
    a = b := by
  cases a; cases b; cases hk; cases ht; rfl

instance : DecidableEq RedeemScript := fun a b =>
  if h : a.keys = b.keys ∧ a.threshold = b.threshold then isTrue (ext_content h.1 h.2)
  else isFalse fun e => h ⟨congrArg keys e, congrArg threshold e⟩

/-- The first key that occurs again further on. -/
def firstRepeated? : List PublicKey → Option PublicKey
  | [] => none
  | key :: rest => if key ∈ rest then some key else firstRepeated? rest

theorem firstRepeated?_eq_none_iff (keys : List PublicKey) :
    firstRepeated? keys = none ↔ keys.Nodup := by
  induction keys with
  | nil => simp [firstRepeated?]
  | cons key rest ih =>
    by_cases h : key ∈ rest
    · simp [firstRepeated?, h]
    · simp [firstRepeated?, h, ih]

/-- **Builds a redeem script**: the number of keys is checked first, then the
threshold, then that no key occurs twice. -/
def build (keys : List PublicKey) (threshold : Nat) : Except Error RedeemScript :=
  if hn : keys.length ≤ maxKeys then
    if hm : 1 ≤ threshold ∧ threshold ≤ keys.length then
      match h : firstRepeated? keys with
      | none =>
        .ok
          { keys, threshold
            one_le_threshold := hm.1
            threshold_le := hm.2
            length_le := hn
            nodup := (firstRepeated?_eq_none_iff keys).1 h }
      | some key => .error (.duplicateKey key.bytes)
    else
      .error (.threshold threshold keys.length)
  else
    .error (.tooManyKeys keys.length)

/-- The octets of keys and a threshold laid out as a script, whether or not they make one. -/
def layout (keys : List PublicKey) (threshold : Nat) : Bytes :=
  Opcode.small threshold ::
    (keys.flatMap (fun key => Opcode.pushKey :: key.bytes) ++
      [Opcode.small keys.length, Opcode.checkMultisig])

/-- **The octets of a redeem script.** -/
def bytes (script : RedeemScript) : Bytes :=
  layout script.keys script.threshold

/-- The octets of a redeem script in hexadecimal. -/
def toHex (script : RedeemScript) : Text :=
  Hex.encode script.bytes

/-! ### Redeem scripts in the making -/

/-- A redeem script in the making. -/
structure Draft where
  keys : List PublicKey
  threshold : Nat
  deriving DecidableEq

namespace Draft

/-- No keys, and no signatures required. -/
def empty : Draft where
  keys := []
  threshold := 0

/-- Keys that all have to sign. -/
def ofKeys (keys : List PublicKey) : Draft where
  keys := keys
  threshold := keys.length

/-- Adds a key behind the others. -/
def addKey (draft : Draft) (key : PublicKey) : Draft :=
  { draft with keys := draft.keys ++ [key] }

/-- Sets how many signatures are required. -/
def setThreshold (draft : Draft) (threshold : Nat) : Draft :=
  { draft with threshold }

/-- The redeem script, if the draft makes one. -/
def build (draft : Draft) : Except Error RedeemScript :=
  RedeemScript.build draft.keys draft.threshold

end Draft

end RedeemScript

end WitnessSigning
