import WitnessSigning.Octets

/-!
# What can go wrong

Every failure of this library is one cause of `WitnessSigning.Error`, with the data that explain it.
Callers that only want to know what sort of failure it was ask for its `WitnessSigning.Error.kind`;
its wording is in `WitnessSigning.Error.message`.
-/

namespace WitnessSigning

/-- The largest number of keys in a multisig script. -/
def maxKeys : Nat := 15

/-- The sorts of failure a caller can react to. -/
inductive ErrorKind where
  | invalidThreshold
  | tooManyKeys
  | duplicateKey
  | inputIndexOutOfRange
  | signatureCountExceedsKeys
  | invalidPublicKey
  | invalidPrivateKey
  | nonStandardScript
  | decodeError
  | lockingScriptMismatch
  | signingFailure
  deriving DecidableEq, Repr

/-- Why octets are no public key. -/
inductive PublicKeyFault where
  /-- Not 33 octets that start with 2 or 3. -/
  | form
  /-- No point of the curve has this first coordinate. -/
  | offCurve
  deriving DecidableEq, Repr

/-- Why octets are no multisig script: the places where its layout can break. -/
inductive LayoutFault where
  | tooShort
  | thresholdOpcode
  | truncatedKey
  | key (fault : PublicKeyFault)
  | surplus
  | countOpcode
  | missingCheck
  deriving DecidableEq, Repr

/-- **The causes of failure.** -/
inductive Error where
  /-- A hexadecimal text of odd length. -/
  | oddHex
  /-- An octet that is no hexadecimal digit. -/
  | hexDigit (octet : UInt8)
  /-- An octet outside the Base58 alphabet. -/
  | base58Digit (octet : UInt8)
  /-- A Base58Check text that cannot hold its checksum. -/
  | base58TooShort
  | base58Checksum
  /-- A read beyond the last octet. -/
  | endOfData
  /-- A length in front of octets that are not all there. -/
  | lengthBeyondData
  /-- A count or length written in more octets than it needs. -/
  | overlongSize
  /-- A witness section in which every witness is empty. -/
  | emptyWitnesses
  | trailingOctets
  | transactionIdLength
  | signatureForm
  | publicKey (fault : PublicKeyFault)
  | secretLength
  | secretRange
  | wifVersion
  | wifLength
  | layout (fault : LayoutFault)
  | tooManyKeys (count : Nat)
  | threshold (threshold count : Nat)
  | duplicateKey (encoding : Bytes)
  | inputIndex (index count : Nat)
  | outputIndex (index : Nat)
  | signatureSlots (slots keys : Nat)
  /-- A coin whose condition does not lead to its locking script. -/
  | condition
  /-- An input that spends another outpoint than the coin's. -/
  | outpoint (index : Nat)
  /-- A witness that ends in another script. -/
  | witnessScript
  /-- A private key that does not open a single-key coin. -/
  | foreignKey
  /-- A private key that is none of the participants'. -/
  | notParticipant
  /-- The point at infinity has no compressed encoding. -/
  | infinity
  /-- A number that does not fit in 32 octets. -/
  | numberTooWide
  /-- No nonce candidate was usable. -/
  | noNonce
  deriving DecidableEq, Repr

/-- The sort of a failure. -/
def Error.kind : Error → ErrorKind
  | oddHex | hexDigit _ | base58Digit _ | base58TooShort | base58Checksum | endOfData
  | lengthBeyondData | overlongSize | emptyWitnesses | trailingOctets | transactionIdLength
  | signatureForm => .decodeError
  | publicKey _ => .invalidPublicKey
  | secretLength | secretRange | wifVersion | wifLength | foreignKey | notParticipant =>
    .invalidPrivateKey
  | layout _ => .nonStandardScript
  | tooManyKeys _ => .tooManyKeys
  | threshold _ _ => .invalidThreshold
  | duplicateKey _ => .duplicateKey
  | inputIndex _ _ | outputIndex _ => .inputIndexOutOfRange
  | signatureSlots _ _ => .signatureCountExceedsKeys
  | condition | outpoint _ | witnessScript => .lockingScriptMismatch
  | infinity | numberTooWide | noNonce => .signingFailure

/-- Two steps succeed together if the first one does and the second one does with its result,
whatever their failures are. -/
theorem Error.bind_eq_ok {ε α β : Type} {first : Except ε α} {second : α → Except ε β} {b : β} :
    (first >>= second) = .ok b ↔ ∃ a, first = .ok a ∧ second a = .ok b := by
  cases first with
  | error e => exact ⟨(nomatch ·), fun ⟨_, h, _⟩ => nomatch h⟩
  | ok a => exact ⟨fun h => ⟨a, rfl, h⟩, fun ⟨_, ha, h⟩ => by cases ha; exact h⟩

/-- A step succeeds with whatever failures it is told to report. -/
theorem Error.mapError_eq_ok {ε ε' α : Type} {step : Except ε α} {f : ε → ε'} {a : α} :
    step.mapError f = .ok a ↔ step = .ok a := by
  cases step with
  | error e => exact ⟨(nomatch ·), (nomatch ·)⟩
  | ok b => exact ⟨fun h => by cases h; rfl, fun h => by cases h; rfl⟩

/-- Two steps fail together if the first one does, or the second one does with its result. -/
theorem Error.bind_eq_error {α β : Type} {first : Except Error α} {second : α → Except Error β}
    {e : Error} : (first >>= second) = .error e ↔
      first = .error e ∨ ∃ a, first = .ok a ∧ second a = .error e := by
  cases first with
  | error e' => exact ⟨fun h => .inl (by cases h; rfl), fun | .inl h => by cases h; rfl⟩
  | ok a => exact ⟨fun h => .inr ⟨a, rfl, h⟩, fun | .inr ⟨_, ha, h⟩ => by cases ha; exact h⟩

end WitnessSigning
