import WitnessSigning.Text.Hex

/-!
# The wording of failures

A message is made of plain characters, one for each octet that it quotes, and ends before the first
NUL: `WitnessSigning.Error.message`.
-/

namespace WitnessSigning

/-- The wording of a public key's fault. -/
def PublicKeyFault.message : PublicKeyFault → String
  | form => "Public key must be 33 bytes in compressed SEC1 form"
  | offCurve => "Public key is not on secp256k1"

/-- The wording of a break in a multisig script's layout. -/
def LayoutFault.message : LayoutFault → String
  | tooShort => "script too short"
  | thresholdOpcode => "threshold is not a small integer opcode"
  | truncatedKey => "truncated public key"
  | key fault => fault.message
  | surplus => "unexpected bytes after the public keys"
  | countOpcode => "key count opcode does not match the number of keys"
  | missingCheck => "missing OP_CHECKMULTISIG"

/-- An octet as the character of that number. -/
def quoted (octet : UInt8) : String :=
  Text.toString [octet]

/-- The wording of a failure before it is cut. -/
def Error.text : Error → String
  | oddHex => "Invalid hex string length"
  | hexDigit c => "Invalid hex character '" ++ quoted c ++ "'"
  | base58Digit c => "Invalid Base58 character '" ++ quoted c ++ "'"
  | base58TooShort => "Base58Check string too short"
  | base58Checksum => "Base58Check checksum mismatch"
  | endOfData => "Unexpected end of data"
  | lengthBeyondData => "Length prefix exceeds data"
  | overlongSize => "Non-canonical CompactSize"
  | emptyWitnesses => "Witness marker without witness data"
  | trailingOctets => "Trailing bytes after transaction"
  | transactionIdLength => "Transaction id must be 32 bytes"
  | signatureForm => "Signature is not strict DER"
  | publicKey fault => fault.message
  | secretLength => "Private key must be 32 bytes"
  | secretRange => "Private key must be in the range [1, n - 1]"
  | wifVersion => "Unknown WIF version byte"
  | wifLength => "Invalid WIF payload length"
  | layout fault => "Not a standard multisig redeem script: " ++ fault.message
  | tooManyKeys count =>
    "Multisig supports at most " ++ toString maxKeys ++ " keys, got " ++ toString count
  | threshold m n => "Threshold " ++ toString m ++ " is outside [1, " ++ toString n ++ "]"
  | duplicateKey encoding => "Duplicate public key " ++ Text.toString (Hex.encode encoding)
  | inputIndex i n =>
    "Input index " ++ toString i ++ " out of range for transaction with " ++ toString n ++ " inputs"
  | outputIndex i => "Previous transaction has no output " ++ toString i
  | signatureSlots slots keys =>
    toString slots ++ " signature slots for a script with " ++ toString keys ++ " keys"
  | condition => "Spending condition does not match the locking script"
  | outpoint i => "Transaction input " ++ toString i ++ " spends a different outpoint"
  | witnessScript => "Witness script does not match the P2WSH locking script of the redeem script"
  | foreignKey => "Private key does not belong to the P2WPKH output"
  | notParticipant => "Private key is not a participant of the redeem script"
  | infinity => "OpenSSL failure: EC_POINT_point2oct"
  | numberTooWide => "OpenSSL failure: BN_bn2binpad"
  | noNonce => "No usable nonce"

/-- **The wording of a failure**, up to its first NUL: a quoted octet may be one, and a message is a
text that NUL ends. -/
def Error.message (e : Error) : String :=
  String.ofList (e.text.toList.takeWhile fun c => c.toNat != 0)

end WitnessSigning
