import WitnessSigning.Document.Basic
import WitnessSigning.Script.Parse
import WitnessSigning.Signature.Der
import WitnessSigning.Transaction.Codec

/-!
# Values as documents

Keys, redeem scripts, signatures and transactions are exchanged as texts in hexadecimal; outpoints
and outputs as records. A document can be refused for its shape, or because what it holds cannot
be read. All of it goes for any type of documents.
-/

namespace WitnessSigning

/-- Why a document is refused. -/
inductive DocumentFault where
  /-- The document, or one of its members, is missing or of the wrong kind. -/
  | shape
  /-- A part cannot be read. -/
  | content (e : Error)
  deriving DecidableEq, Repr

section Exchange

variable {D : Type} [DocumentType D]

namespace DocumentType

/-- What a document is read as, or else it has the wrong shape. -/
def demand {α : Type} : Option α → Except DocumentFault α
  | some a => .ok a
  | none => .error .shape

/-- What a text holds. -/
def reading {α : Type} (read : Text → Except Error α) (d : D) : Except DocumentFault α := do
  (read (← demand (text? d))).mapError DocumentFault.content

end DocumentType

open DocumentType (demand member? number reading record text word32? word64?)

/-! ### Texts -/

/-- A public key as a document. -/
def PublicKey.toDocument (key : PublicKey) : D :=
  text key.toHex

/-- Reads a public key from a document. -/
def PublicKey.ofDocument : D → Except DocumentFault PublicKey :=
  reading PublicKey.ofHex

/-- A redeem script as a document. -/
def RedeemScript.toDocument (script : RedeemScript) : D :=
  text script.toHex

/-- Reads a redeem script from a document. -/
def RedeemScript.ofDocument : D → Except DocumentFault RedeemScript :=
  reading RedeemScript.ofHex

/-- A signature as a document. -/
def Signature.toDocument (sig : Signature) : D :=
  text sig.toHex

/-- Reads a signature from hexadecimal, and refuses what is not strict. -/
def Signature.ofStrictHex (text : Text) : Except Error Signature := do
  match ← Signature.ofHex? text with
  | some sig => return sig
  | none => throw .signatureForm

/-- Reads a signature from a document. -/
def Signature.ofDocument : D → Except DocumentFault Signature :=
  reading Signature.ofStrictHex

/-- A transaction as a document. -/
def Transaction.toDocument (tx : Transaction) : D :=
  text tx.toHex

/-- Reads a transaction from a document. -/
def Transaction.ofDocument : D → Except DocumentFault Transaction :=
  reading Transaction.ofHex

/-! ### Records -/

/-- An outpoint as a document. -/
def Outpoint.toDocument (o : Outpoint) : D :=
  record [("index", number o.index.toUInt64), ("txid", text o.transaction.toHex)]

/-- Reads an outpoint from a document. -/
def Outpoint.ofDocument (d : D) : Except DocumentFault Outpoint := do
  let transaction ← reading TransactionId.ofHex (← demand (member? d "txid"))
  let index ← demand (word32? (← demand (member? d "index")))
  return { transaction, index }

/-- An output as a document. -/
def TxOutput.toDocument (output : TxOutput) : D :=
  record
    [("script_pubkey", text (Hex.encode output.locking)), ("value", number output.value)]

/-- Reads an output from a document. -/
def TxOutput.ofDocument (d : D) : Except DocumentFault TxOutput := do
  let value ← demand (word64? (← demand (member? d "value")))
  let locking ← reading Hex.decode (← demand (member? d "script_pubkey"))
  return { value, locking }

end Exchange

end WitnessSigning
