import WitnessSigning.Error.Message
import WitnessSigning.Octets.Order

/-!
# Transactions

A transaction moves the values of earlier outputs, which its inputs name, to new outputs. An input
may carry a witness, a stack of octet strings that shows its right to spend.
-/

namespace WitnessSigning

/-- The identifier of a transaction, in the order in which it is hashed and written. -/
abbrev TransactionId := Octets 32

namespace TransactionId

/-- The shown form of an identifier: hexadecimal, from the last octet to the first. -/
def toHex (id : TransactionId) : Text :=
  Hex.encode id.reverse.toList

/-- Reads the shown form of an identifier. -/
def ofHex (text : Text) : Except Error TransactionId := do
  let bytes ← Hex.decode text
  match Octets.ofList? 32 bytes with
  | some shown => return shown.reverse
  | none => throw .transactionIdLength

end TransactionId

/-- **An outpoint**: the name of an output by its transaction and its place there. -/
structure Outpoint where
  transaction : TransactionId
  index : UInt32
  deriving DecidableEq

/-- The octet strings that show the right to spend an input. -/
abbrev Witness := List Bytes

/-- An input of a transaction. -/
structure TxInput where
  /-- The output that is spent. -/
  source : Outpoint
  /-- The script that unlocks outputs of the old kind; empty here. -/
  unlocking : Bytes
  sequence : UInt32
  witness : Witness
  deriving DecidableEq

/-- An output of a transaction. -/
structure TxOutput where
  value : UInt64
  /-- The locking script. -/
  locking : Bytes
  deriving DecidableEq

/-- **A transaction.** -/
structure Transaction where
  version : Int32
  inputs : List TxInput
  outputs : List TxOutput
  lockTime : UInt32
  deriving DecidableEq

/-- The sequence number of an input that does not wait. -/
def finalSequence : UInt32 := 0xffffffff

namespace Transaction

/-- Whether some input carries a witness. -/
def hasWitness (tx : Transaction) : Bool :=
  tx.inputs.any fun input => !input.witness.isEmpty

/-- The input at a place. -/
def inputAt (tx : Transaction) (index : Nat) : Except Error TxInput :=
  match tx.inputs[index]? with
  | some input => .ok input
  | none => .error (.inputIndex index tx.inputs.length)

/-- The output at a place. -/
def outputAt (tx : Transaction) (index : Nat) : Except Error TxOutput :=
  match tx.outputs[index]? with
  | some output => .ok output
  | none => .error (.outputIndex index)

/-- Replaces the witness of the input at a place. -/
def setWitness (tx : Transaction) (index : Nat) (witness : Witness) : Transaction :=
  { tx with inputs := tx.inputs.modify index fun input => { input with witness } }

/-- Replaces the sequence number of the input at a place. -/
def setSequence (tx : Transaction) (index : Nat) (sequence : UInt32) : Transaction :=
  { tx with inputs := tx.inputs.modify index fun input => { input with sequence } }

/-- Replaces the value of the output at a place. -/
def setValue (tx : Transaction) (index : Nat) (value : UInt64) : Transaction :=
  { tx with outputs := tx.outputs.modify index fun output => { output with value } }

/-- The transaction with all witnesses emptied. -/
def stripped (tx : Transaction) : Transaction :=
  { tx with inputs := tx.inputs.map fun input => { input with witness := [] } }

end Transaction

end WitnessSigning
