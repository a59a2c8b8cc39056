import WitnessSigning.Key.Public
import WitnessSigning.Text.Base58

/-!
# Private keys

A private key is a scalar other than zero, with the network and the compression flag that its text
form carries. Its public key is the generator's multiple by that scalar, always in compressed form.

The text form, the wallet import format, is Base58Check over a version octet, the secret, and a
final one if the public key is to be compressed. All test networks share one version, and a key
read from it is a testnet key.
-/

namespace WitnessSigning

/-- The chain that a key or an address belongs to. -/
inductive Network where
  | mainnet
  | testnet
  | signet
  | regtest
  deriving DecidableEq, Repr

/-- **A private key.** -/
structure PrivateKey where
  scalar : Scalar
  scalar_ne_zero : scalar ≠ 0
  network : Network
  compressed : Bool
  deriving DecidableEq

namespace PrivateKey

/-- The scalar as 32 octets. -/
def secret (key : PrivateKey) : Octets 32 :=
  bigEndian 32 key.scalar.val

/-- **A private key from its secret**: 32 octets that stand for a number from 1
to below the order of the curve. -/
def ofSecret (secret : Bytes) (network : Network) (compressed : Bool) :
    Except Error PrivateKey :=
  if secret.length = 32 then
    if h : ofBigEndian secret < groupOrder then
      if h0 : (⟨ofBigEndian secret, h⟩ : Scalar) ≠ 0 then
        .ok { scalar := ⟨ofBigEndian secret, h⟩, scalar_ne_zero := h0, network, compressed }
      else
        .error .secretRange
    else
      .error .secretRange
  else
    .error .secretLength

/-- **The public key** that belongs to a private key. -/
def publicKey (key : PrivateKey) : Except Error PublicKey :=
  PublicKey.ofPoint (generator.multiply key.scalar)

/-! ### Private keys as text -/

/-- The version octet of a network. -/
def wifVersion : Network → UInt8
  | .mainnet => 0x80
  | .testnet | .signet | .regtest => 0xef

/-- The network that a version octet stands for. -/
def networkOfVersion? (version : UInt8) : Option Network :=
  if version = 0x80 then some .mainnet else if version = 0xef then some .testnet else none

/-- The flag octet behind the secret of a compressed key. -/
def compressedFlag : UInt8 := 1

/-- The octets that the text of a key encodes. -/
def wifPayload (key : PrivateKey) : Bytes :=
  wifVersion key.network :: (key.secret.toList ++ if key.compressed then [compressedFlag] else [])

/-- **The text of a private key.** -/
def toWif (key : PrivateKey) : Text :=
  Base58.encode key.wifPayload

/-- Reads the octets of a text: the version first, then the length and flag, then the secret. -/
def ofWifPayload (payload : Bytes) : Except Error PrivateKey :=
  match payload with
  | [] => .error .wifVersion
  | version :: rest =>
    match networkOfVersion? version with
    | none => .error .wifVersion
    | some network =>
      if rest.length = 33 ∧ rest.getLast? = some compressedFlag then
        ofSecret (rest.take 32) network true
      else if rest.length = 32 then
        ofSecret rest network false
      else
        .error .wifLength

/-- **Reads a private key** from its text. -/
def ofWif (text : Text) : Except Error PrivateKey := do
  ofWifPayload (← Base58.decode text)

end PrivateKey

end WitnessSigning
