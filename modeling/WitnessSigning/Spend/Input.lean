import WitnessSigning.Signature.Sign
import WitnessSigning.Spend.Coin
import WitnessSigning.Spend.Witness

/-!
# Spending inputs

An input that spends a coin is signed by one key at a time. Before anything is signed, the
input has to exist, the coin's condition has to lead to its locking script, and the input
has to spend that very coin. A signature for a single key completes the witness at once; one
for a redeem script joins those already there, in the place of its key. No step touches
anything but the witness of its input.

A call gives a new transaction; for callers that hold one transaction and have it changed, the same
steps run in place (`WitnessSigning.Transaction.spendInPlace`).
-/

namespace WitnessSigning.Transaction

/-- **The digest to sign**, after checking that the input spends the coin. -/
def checkedDigest (tx : Transaction) (index : Nat) (coin : Coin) : Except Error Digest := do
  let input ← tx.inputAt index
  if coin.Consistent then
    if input.source = coin.outpoint then tx.coinDigest index coin else throw (.outpoint index)
  else
    throw .condition

/-- **A signature for an input**, without changing the transaction. -/
def signInput (tx : Transaction) (index : Nat) (coin : Coin) (key : PrivateKey) :
    Except Error Signature := do
  Signature.sign key (← tx.checkedDigest index coin)

/-- **Whether the witness of an input unlocks the coin** that it spends. -/
def verifyInput (tx : Transaction) (index : Nat) (coin : Coin) : Except Error Bool := do
  let input ← tx.inputAt index
  if coin.Consistent ∧ input.source = coin.outpoint then
    let digest ← tx.coinDigest index coin
    match coin.condition with
    | .key _ => return Witness.unlocksKey input.witness coin.locking digest
    | .multisig script => return Witness.unlocksScript input.witness script digest
  else
    return false

/-- The witness of an input after one more signature. -/
def signedWitness (witness : Witness) (condition : SpendingCondition) (digest : Digest)
    (key : PrivateKey) : Except Error Witness := do
  let participant ← key.publicKey
  match condition with
  | .key owner =>
    if owner = participant then
      return Witness.ofKey (← Signature.sign key digest) participant
    else
      throw .foreignKey
  | .multisig script =>
    match script.keys.idxOf? participant with
    | none => throw .notParticipant
    | some place =>
      let slots ← Witness.collect witness script digest
      let sig ← Signature.sign key digest
      Witness.assemble script (slots.set place (some sig))

/-- **Spends an input**: signs it and puts the signature into its witness. -/
def spendInput (tx : Transaction) (index : Nat) (coin : Coin) (key : PrivateKey) :
    Except Error Transaction := do
  let digest ← tx.checkedDigest index coin
  let input ← tx.inputAt index
  return tx.setWitness index (← signedWitness input.witness coin.condition digest key)

/-! ### In place -/

/-- Steps on a transaction that a caller holds. One that fails does not take back what was written
before it. -/
abbrev Held (α : Type) := ExceptT Error (StateM Transaction) α

/-- What the steps end in, and the transaction that they leave to the caller. -/
def Held.on {α : Type} (steps : Held α) (tx : Transaction) : Except Error α × Transaction :=
  steps.run.run tx

/-- **Spends an input in place.** -/
def spendInPlace (index : Nat) (coin : Coin) (key : PrivateKey) : Held Unit := do
  let tx ← get
  let digest ← MonadExcept.ofExcept (tx.checkedDigest index coin)
  let input ← MonadExcept.ofExcept (tx.inputAt index)
  let participant ← MonadExcept.ofExcept key.publicKey
  match coin.condition with
  | .key owner =>
    if owner = participant then
      let sig ← MonadExcept.ofExcept (Signature.sign key digest)
      set (tx.setWitness index (Witness.ofKey sig participant))
    else
      throw .foreignKey
  | .multisig script =>
    match script.keys.idxOf? participant with
    | none => throw .notParticipant
    | some place =>
      let slots ← MonadExcept.ofExcept (Witness.collect input.witness script digest)
      let sig ← MonadExcept.ofExcept (Signature.sign key digest)
      let witness ← MonadExcept.ofExcept (Witness.assemble script (slots.set place (some sig)))
      set (tx.setWitness index witness)

end WitnessSigning.Transaction
