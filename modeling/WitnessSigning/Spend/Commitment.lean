import WitnessSigning.Signature.Basic
import WitnessSigning.Transaction.Codec

/-!
# What a signature commits to

The digest that is signed for an input covers the whole transaction: hashes of all outpoints, all
sequence numbers and all outputs, which are the same for every input
(`WitnessSigning.Commitments`), together with the input itself, the script and the value that it
spends, and the transaction's other fields.
-/

namespace WitnessSigning

/-- **The hashes shared by all inputs** of a transaction. -/
structure Commitments where
  sources : Octets 32
  sequences : Octets 32
  outputs : Octets 32
  deriving DecidableEq

/-- The mark for a signature that commits to all inputs and outputs. -/
def commitToAll : UInt32 := 1

namespace Transaction

/-- The octets of all outpoints. -/
def sourceOctets (tx : Transaction) : Bytes :=
  tx.inputs.flatMap fun input => input.source.encode

/-- The octets of all sequence numbers. -/
def sequenceOctets (tx : Transaction) : Bytes :=
  tx.inputs.flatMap fun input => Wire.u32 input.sequence

/-- The octets of all outputs. -/
def outputOctets (tx : Transaction) : Bytes :=
  tx.outputs.flatMap TxOutput.encode

/-- The hashes shared by all inputs. -/
def commitments (tx : Transaction) : Commitments where
  sources := doubleSha256 tx.sourceOctets
  sequences := doubleSha256 tx.sequenceOctets
  outputs := doubleSha256 tx.outputOctets

/-- The octets that are hashed for an input, given the shared hashes. -/
def messageWith (tx : Transaction) (shared : Commitments) (input : TxInput) (scriptCode : Bytes)
    (value : UInt64) : Bytes :=
  Wire.u32 tx.version.toUInt32 ++ (shared.sources.toList ++ (shared.sequences.toList ++
    (input.source.encode ++ (Wire.sized scriptCode ++ (Wire.u64 value ++
      (Wire.u32 input.sequence ++ (shared.outputs.toList ++ (Wire.u32 tx.lockTime ++
        Wire.u32 commitToAll))))))))

/-- **The octets that are hashed** for the input at a place. -/
def message (tx : Transaction) (shared : Commitments) (index : Nat) (scriptCode : Bytes)
    (value : UInt64) : Except Error Bytes := do
  let input ← tx.inputAt index
  return tx.messageWith shared input scriptCode value

/-- **The digest that is signed** for the input at a place. -/
def digest (tx : Transaction) (shared : Commitments) (index : Nat) (scriptCode : Bytes)
    (value : UInt64) : Except Error Digest := do
  return doubleSha256 (← tx.message shared index scriptCode value)

end Transaction

end WitnessSigning
