import WitnessSigning.Script.Locking
import WitnessSigning.Spend.Commitment

/-!
# Coins

A coin is an output as its spender knows it: where it is, its value and locking script, and the
condition under which it can be spent. The condition is the spender's claim; whether it leads to
the locking script is checked when the coin is spent.
-/

namespace WitnessSigning

/-- **A coin**: an output with the condition for spending it. -/
structure Coin where
  outpoint : Outpoint
  value : UInt64
  locking : Bytes
  condition : SpendingCondition
  deriving DecidableEq

namespace Coin

/-- The coin of a known output. -/
def ofOutput (outpoint : Outpoint) (output : TxOutput) (condition : SpendingCondition) : Coin where
  outpoint := outpoint
  value := output.value
  locking := output.locking
  condition := condition

/-- **The coin of an earlier transaction's output.** -/
def ofTransaction (tx : Transaction) (index : UInt32) (condition : SpendingCondition) :
    Except Error Coin := do
  let output ← tx.outputAt index.toNat
  return ofOutput { transaction := tx.id, index } output condition

/-- Whether the condition leads to the locking script. -/
def Consistent (coin : Coin) : Prop :=
  coin.condition.locking = coin.locking

instance (coin : Coin) : Decidable coin.Consistent :=
  inferInstanceAs (Decidable (_ = _))

end Coin

/-- The digest that is signed for spending a coin by the input at a place. -/
def Transaction.coinDigest (tx : Transaction) (index : Nat) (coin : Coin) : Except Error Digest :=
  tx.digest tx.commitments index coin.condition.scriptCode coin.value

end WitnessSigning
