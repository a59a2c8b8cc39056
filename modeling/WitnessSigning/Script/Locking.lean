import WitnessSigning.Key.Private
import WitnessSigning.Script.Redeem
import WitnessSigning.Text.Bech32

/-!
# Spending conditions and their locking scripts

An output is locked by a witness program: a hash of the condition under which it can be spent,
which is a single key or a redeem script. The locking script pushes the version and the program,
and its address is the program in Bech32 under the human-readable part of a network.
-/

namespace WitnessSigning

/-- **What it takes to spend an output**: a signature by one key, or signatures by several keys of a
redeem script. -/
inductive SpendingCondition where
  | key (key : PublicKey)
  | multisig (script : RedeemScript)
  deriving DecidableEq

/-- Pushes the version and a program. -/
def lockingOfProgram (program : Bytes) : Bytes :=
  Bech32.version :: UInt8.ofNat program.length :: program

/-- The program of a locking script, if that is what it is. -/
def programOfLocking? (locking : Bytes) : Option Bytes :=
  match locking with
  | version :: length :: program =>
    if version = Bech32.version ∧ length.toNat = program.length ∧
        (program.length = 20 ∨ program.length = 32) then
      some program
    else
      none
  | _ => none

/-- The hash of a redeem script. -/
def RedeemScript.hash (script : RedeemScript) : Octets 32 :=
  sha256 script.bytes

namespace SpendingCondition

/-- **The witness program** of a condition. -/
def program : SpendingCondition → Bytes
  | key k => k.hash.toList
  | multisig script => script.hash.toList

/-- **The locking script** of a condition. -/
def locking (condition : SpendingCondition) : Bytes :=
  lockingOfProgram condition.program

/-- **The script that a signature commits to**: for a single key the classic script for its hash,
for a redeem script the script itself. -/
def scriptCode : SpendingCondition → Bytes
  | key k =>
    [Opcode.dup, Opcode.hash160, 20] ++ (k.hash.toList ++ [Opcode.equalVerify, Opcode.checkSig])
  | multisig script => script.bytes

end SpendingCondition

/-! ### Addresses -/

/-- The human-readable part of a network's addresses. -/
def Network.hrp : Network → Text
  | .mainnet => [98, 99]
  | .testnet | .signet => [116, 98]
  | .regtest => [98, 99, 114, 116]

/-- The address of a condition. -/
def SpendingCondition.address (condition : SpendingCondition) (network : Network) : Text :=
  Bech32.encode network.hrp condition.program

/-- **The address of a locking script**, if it pushes a witness program. -/
def addressOfLocking? (locking : Bytes) (network : Network) : Option Text :=
  (programOfLocking? locking).map (Bech32.encode network.hrp)

/-- **The locking script of an address**, if it is one of the network. -/
def lockingOfAddress? (address : Text) (network : Network) : Option Bytes :=
  (Bech32.decode? network.hrp address).map lockingOfProgram

end WitnessSigning
