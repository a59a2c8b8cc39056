import WitnessSigning.Hash.Sha256
import WitnessSigning.Transaction.Basic
import WitnessSigning.Wire.Reader

/-!
# Transactions on the wire

A transaction is written as its version, inputs, outputs and lock time. If some input carries a
witness, a marker stands behind the version and the witnesses of all inputs stand in front of the
lock time. The marker looks like an empty list of inputs followed by a count of one, so a
transaction without inputs and with a single output does not read back; every other one does.
-/

namespace WitnessSigning

/-! ### Writing -/

/-- The octets of an outpoint. -/
def Outpoint.encode (o : Outpoint) : Bytes :=
  o.transaction.toList ++ Wire.u32 o.index

/-- The octets of an input, without its witness. -/
def TxInput.encode (input : TxInput) : Bytes :=
  input.source.encode ++ (Wire.sized input.unlocking ++ Wire.u32 input.sequence)

/-- The octets of an output. -/
def TxOutput.encode (output : TxOutput) : Bytes :=
  Wire.u64 output.value ++ Wire.sized output.locking

/-- The octets of a witness. -/
def encodeWitness (witness : Witness) : Bytes :=
  Wire.count witness ++ witness.flatMap Wire.sized

namespace Transaction

/-- What stands behind the version where witnesses follow. -/
def marker : Bytes := [0, 1]

/-- The octets of a transaction, with a marker and all witnesses or without either. -/
def layout (tx : Transaction) (witnesses : Bool) : Bytes :=
  Wire.u32 tx.version.toUInt32 ++
    ((if witnesses then marker else []) ++
      ((Wire.count tx.inputs ++ tx.inputs.flatMap TxInput.encode) ++
        ((Wire.count tx.outputs ++ tx.outputs.flatMap TxOutput.encode) ++
          ((if witnesses then tx.inputs.flatMap fun input => encodeWitness input.witness else []) ++
            Wire.u32 tx.lockTime))))

/-- **Writes a transaction**, with witnesses if there are any. -/
def encode (tx : Transaction) : Bytes :=
  tx.layout tx.hasWitness

/-- Writes a transaction without its witnesses. -/
def encodeStripped (tx : Transaction) : Bytes :=
  tx.layout false

/-- **The identifier of a transaction**, which does not depend on its witnesses. -/
def id (tx : Transaction) : TransactionId :=
  doubleSha256 tx.encodeStripped

end Transaction

/-! ### Reading -/

/-- Reads an outpoint. -/
def Outpoint.read : Wire.Reader Outpoint := do
  let transaction ← Wire.Reader.octets 32
  let index ← Wire.Reader.u32
  return { transaction, index }

/-- Reads an input, with an empty witness. -/
def TxInput.read : Wire.Reader TxInput := do
  let source ← Outpoint.read
  let unlocking ← Wire.Reader.sized
  let sequence ← Wire.Reader.u32
  return { source, unlocking, sequence, witness := [] }

/-- Reads an output. -/
def TxOutput.read : Wire.Reader TxOutput := do
  let value ← Wire.Reader.u64
  let locking ← Wire.Reader.sized
  return { value, locking }

/-- Reads a witness for each of some inputs, behind the inputs already done, which come latest
first. -/
def readWitnesses : List TxInput → List TxInput → Wire.Reader (List TxInput)
  | [], done, c => (.ok done.reverse, c)
  | input :: rest, done, c =>
    match Wire.Reader.counted Wire.Reader.sized c with
    | (.ok witness, c) => readWitnesses rest ({ input with witness } :: done) c
    | (.error e, c) => (.error e, c)

namespace Transaction

/-- Passes the marker, if it is what comes next. -/
def readMarker : Wire.Reader Bool := fun c =>
  match c.unread with
  | 0 :: 1 :: _ => (.ok true, c.advance 2)
  | _ => (.ok false, c)

/-- Reads a transaction up to its lock time. -/
def read : Wire.Reader Transaction := do
  let version ← Wire.Reader.u32
  let marked ← readMarker
  let bare ← Wire.Reader.counted TxInput.read
  let outputs ← Wire.Reader.counted TxOutput.read
  let inputs ← if marked then readWitnesses bare [] else pure bare
  if marked && inputs.all fun input => input.witness.isEmpty then
    Wire.Reader.fail .emptyWitnesses
  else
    let lockTime ← Wire.Reader.u32
    return { version := version.toInt32, inputs, outputs, lockTime }

/-- **Reads a transaction** that takes up all the octets. -/
def decode (bs : Bytes) : Except Error Transaction :=
  match read (Wire.Cursor.start bs) with
  | (.error e, _) => .error e
  | (.ok tx, c) => if c.unread.isEmpty then .ok tx else .error .trailingOctets

/-- Reads a transaction from hexadecimal. -/
def ofHex (text : Text) : Except Error Transaction := do
  decode (← Hex.decode text)

/-- Writes a transaction in hexadecimal. -/
def toHex (tx : Transaction) : Text :=
  Hex.encode tx.encode

end Transaction

end WitnessSigning
