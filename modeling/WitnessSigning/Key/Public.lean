import WitnessSigning.Curve.Encoding
import WitnessSigning.Hash.Ripemd160
import WitnessSigning.Text.Hex

/-!
# Public keys

A public key is a point of the curve with its compressed form. The type keeps both and that the one
reads as the other, so no key is ever off the curve and equal keys are those with equal octets.
-/

namespace WitnessSigning

/-- **A public key**: a compressed form and the point that it reads as. -/
structure PublicKey where
  /-- The compressed form. -/
  encoding : Octets 33
  point : Point
  ofBytes?_encoding : Point.ofBytes? encoding.toList = some point

namespace PublicKey

/-- Keys are equal as soon as their octets are. -/
theorem ext_encoding {a b : PublicKey} (h : a.encoding = b.encoding) : a = b := by
  cases a with
  | mk e P hP =>
    cases b with
    | mk f Q hQ =>
      cases h
      cases hP.symm.trans hQ
      rfl

instance : DecidableEq PublicKey := fun a b =>
  if h : a.encoding = b.encoding then isTrue (ext_encoding h)
  else isFalse fun e => h (congrArg encoding e)

/-- The octets of a key. -/
def bytes (key : PublicKey) : Bytes :=
  key.encoding.toList

/-- Whether octets have a compressed key's length and one of its tags. -/
def hasForm (bs : Bytes) : Bool :=
  bs.length = 33 && (bs.head? == some 2 || bs.head? == some 3)

/-- **Reads a public key**: the form first, then the point. -/
def ofBytes (bs : Bytes) : Except PublicKeyFault PublicKey :=
  if hasForm bs then
    match Octets.ofList? 33 bs with
    | none => .error .form
    | some encoding =>
      match h : Point.ofBytes? encoding.toList with
      | none => .error .offCurve
      | some point => .ok ⟨encoding, point, h⟩
  else
    .error .form

/-- Reads a public key from its octets in hexadecimal. -/
def ofHex (text : Text) : Except Error PublicKey := do
  (ofBytes (← Hex.decode text)).mapError Error.publicKey

/-- The public key of a point: the key that its compressed form reads as. -/
def ofPoint (P : Point) : Except Error PublicKey := do
  (ofBytes (← P.compress).toList).mapError Error.publicKey

/-- The octets of a key in hexadecimal. -/
def toHex (key : PublicKey) : Text :=
  Hex.encode key.bytes

/-- The short hash of a key. -/
def hash (key : PublicKey) : Octets 20 :=
  hash160 key.bytes

end PublicKey

end WitnessSigning
