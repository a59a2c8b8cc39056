import WitnessSigning.Document.Exchange
import WitnessSigning.Spend.Input

/-!
# A spend from beginning to end

Three fixed keys hold a coin that two of them have to sign for, and one of them holds a coin
alone. A transaction spends both: the shared coin is signed by one key, which is not enough, and
then by another; the single coin is signed by its owner. The transcript says what a reader would
want to see on the way and ends with the signed transaction.
-/

namespace WitnessSigning.Walkthrough

/-- **What the walk shows**: its lines, the closing document if all went well,
and else a complaint. -/
structure Transcript where
  lines : List Text
  summary : Option Document
  complaint : Text
  status : UInt32

/-- Steps that show lines and may fail; a failure keeps the lines shown so far. -/
abbrev Walk := ExceptT Error (StateM (List Text))

/-- Shows a line. -/
def say (label : String) (content : Text) : Walk Unit :=
  modify fun lines => lines ++ [Text.ofString label ++ content]

/-- The identifier of the transaction that both coins come from. -/
def fundingId : Text :=
  Text.ofString "8f3c7a1d2b4e6f8091a2b3c4d5e6f708192a3b4c5d6e7f8091a2b3c4d5e6f708"

/-- The value of the shared coin. -/
def sharedValue : UInt64 := 50000

/-- The value of the single coin. -/
def singleValue : UInt64 := 30000

/-- What the transaction leaves to the network. -/
def fee : UInt64 := 1000

/-- The keys of the walk, whose secrets repeat one octet. -/
def fixedKey (octet : UInt8) : Except Error PrivateKey :=
  PrivateKey.ofSecret (List.replicate 32 octet) .regtest true

/-- The walk; `none` if the signed transaction does not verify. -/
def walk : Walk (Option Document) := do
  let alice ← fixedKey 0x11
  let bob ← fixedKey 0x22
  let carol ← fixedKey 0x33
  let aliceKey ← alice.publicKey
  let bobKey ← bob.publicKey
  let carolKey ← carol.publicKey
  let script ← RedeemScript.build [aliceKey, bobKey, carolKey] 2
  let shared := SpendingCondition.multisig script
  let single := SpendingCondition.key carolKey
  say "redeem script: " script.toHex
  say "p2wsh address: " (shared.address .regtest)
  say "p2wpkh address: " (single.address .regtest)
  let funding ← TransactionId.ofHex fundingId
  let sharedCoin :=
    Coin.ofOutput { transaction := funding, index := 0 }
      { value := sharedValue, locking := shared.locking } shared
  let singleCoin :=
    Coin.ofOutput { transaction := funding, index := 1 }
      { value := singleValue, locking := single.locking } single
  let input (coin : Coin) : TxInput :=
    { source := coin.outpoint, unlocking := [], sequence := finalSequence, witness := [] }
  let unsigned : Transaction :=
    { version := 2
      inputs := [input sharedCoin, input singleCoin]
      outputs := [{ value := sharedValue + singleValue - fee,
                    locking := (SpendingCondition.key aliceKey).locking }]
      lockTime := 0 }
  let tx ← unsigned.spendInput 0 sharedCoin carol
  let early ← tx.verifyInput 0 sharedCoin
  say "multisig input after one signature verifies: "
    (Text.ofString (if early then "true" else "false"))
  let tx ← tx.spendInput 0 sharedCoin alice
  let tx ← tx.spendInput 1 singleCoin carol
  if (← tx.verifyInput 0 sharedCoin) && (← tx.verifyInput 1 singleCoin) then
    return some <| .record
      [("redeem_script", script.toDocument),
       ("spent", .list [sharedCoin.outpoint.toDocument, singleCoin.outpoint.toDocument]),
       ("tx", tx.toDocument),
       ("txid", .text tx.id.toHex)]
  else
    return none

/-- **The transcript of the walk.** -/
def transcript : Transcript :=
  match walk.run.run [] with
  | (.ok (some summary), lines) => { lines, summary := some summary, complaint := [], status := 0 }
  | (.ok none, lines) =>
    { lines, summary := none, status := 1
      complaint := Text.ofString "Signed transaction failed verification\n" }
  | (.error e, lines) =>
    { lines, summary := none, status := 1
      complaint := Text.ofString ("Error: " ++ e.message ++ "\n") }

end WitnessSigning.Walkthrough
