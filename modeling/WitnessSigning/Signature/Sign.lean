import WitnessSigning.Key.Private
import WitnessSigning.Signature.Verify

/-!
# Making signatures

The signature of a digest `z` under a secret `d` with nonce `k` has as `r` the first coordinate of
`k G` modulo the order, and as `s` the quotient `(z + r d) / k`. A candidate that is no scalar, or
that makes either number zero, is refused and the next one drawn. The result is the low form.

Nonces are drawn from a chain of keyed hashes, seeded with the secret and the digest, so that the
same message under the same key is always signed alike and no two messages share a nonce.
-/

namespace WitnessSigning

/-- **The state of a chain of nonces.** -/
structure NonceChain where
  key : Octets 32
  value : Octets 32
  deriving DecidableEq

namespace NonceChain

/-- Renews key and value with a mark and some seed. -/
def reseed (chain : NonceChain) (mark : UInt8) (seed : Bytes) : NonceChain :=
  let key := hmacSha256 chain.key.toList (chain.value.toList ++ mark :: seed)
  { key, value := hmacSha256 key.toList chain.value.toList }

/-- The chain for a secret and a digest. -/
def start (secret digest : Octets 32) : NonceChain :=
  let seed := secret.toList ++ digest.toList
  let blank : NonceChain := { key := Octets.replicate 32 0, value := Octets.replicate 32 1 }
  (blank.reseed 0 seed).reseed 1 seed

/-- Draws the next candidate, which becomes the chain's value. -/
def draw (chain : NonceChain) : NonceChain :=
  { chain with value := hmacSha256 chain.key.toList chain.value.toList }

/-- Moves on from a candidate that was refused. -/
def refuse (chain : NonceChain) : NonceChain :=
  chain.reseed 0 []

end NonceChain

namespace Signature

/-- The signature with a given nonce, unless the nonce is unusable. -/
def withNonce? (d z k : Scalar) : Option Signature :=
  match generator.multiply k with
  | .infinity => none
  | .affine x _ =>
    let r := Fin.ofNat groupOrder x.val
    let s := inverse k * (z + r * d)
    if r = 0 ∨ s = 0 then none
    else some { r := BitVec.ofNat 256 r.val, s := BitVec.ofNat 256 s.val }

/-- The signature with a candidate for the nonce. -/
def withCandidate? (d z : Scalar) (candidate : Octets 32) : Option Signature :=
  let k := ofBigEndian candidate.toList
  if h : k < groupOrder then
    if k = 0 then none else withNonce? d z ⟨k, h⟩
  else
    none

/-- The first signature that a chain of nonces gives, among the given number of candidates. -/
def search (d z : Scalar) : Nat → NonceChain → Except Error Signature
  | 0, _ => .error .noNonce
  | tries + 1, chain =>
    let drawn := chain.draw
    match withCandidate? d z drawn.value with
    | some sig => .ok sig
    | none => search d z tries drawn.refuse

/-- **Signs a digest** with the first of so many nonces that serves. -/
def signWithin (tries : Nat) (key : PrivateKey) (digest : Digest) : Except Error Signature := do
  let z := digestScalar digest
  let sig ← search key.scalar z tries (NonceChain.start key.secret (bigEndian 32 z.val))
  return sig.normalized

/-- How many candidates are tried; each is refused with a probability below `2 ^ -127`. -/
def maxTries : Nat := 128

/-- **Signs a digest.** -/
def sign (key : PrivateKey) (digest : Digest) : Except Error Signature :=
  signWithin maxTries key digest

end Signature

end WitnessSigning
