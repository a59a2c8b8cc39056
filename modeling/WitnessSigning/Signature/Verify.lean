import WitnessSigning.Key.Public
import WitnessSigning.Signature.Der

/-!
# Checking signatures

A signature is valid for a key and a digest if both its numbers are scalars other than zero and a
point computed from them, the digest and the key has the first coordinate `r`, taken modulo the
order. Acceptance asks for more: the signature has to be the low one of its two forms.
-/

namespace WitnessSigning.Signature

/-- The number of a digest modulo the order. -/
def digestScalar (digest : Digest) : Scalar :=
  Fin.ofNat groupOrder (ofBigEndian digest.toList)

/-- A number as a scalar other than zero. -/
def scalar? (v : BitVec 256) : Option Scalar :=
  if h : v.toNat < groupOrder then
    if v.toNat = 0 then none else some ⟨v.toNat, h⟩
  else
    none

/-- **The equation of a valid signature**: the point `(z / s) G + (r / s) Q` has the
first coordinate `r` modulo the order. -/
def equationHolds (Q : Point) (z r s : Scalar) : Bool :=
  let w := inverse s
  match Point.combine (z * w) generator (r * w) Q with
  | .infinity => false
  | .affine x _ => Fin.ofNat groupOrder x.val = r

/-- Whether a signature is valid, in either of its forms. -/
def valid (key : PublicKey) (digest : Digest) (sig : Signature) : Bool :=
  match scalar? sig.r, scalar? sig.s with
  | some r, some s => equationHolds key.point (digestScalar digest) r s
  | _, _ => false

/-- **Acceptance**: a signature that is valid and low. -/
def accepts (key : PublicKey) (digest : Digest) (sig : Signature) : Bool :=
  sig.isLow && valid key digest sig

/-- Acceptance of a signature by its strict encoding. -/
def acceptsDer (key : PublicKey) (digest : Digest) (der : Bytes) : Bool :=
  (ofDer? der).any (accepts key digest)

end WitnessSigning.Signature
