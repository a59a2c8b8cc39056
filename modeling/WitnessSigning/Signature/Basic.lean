import WitnessSigning.Curve.Field

/-!
# Signatures

A signature is a pair of numbers of 256 bits. For every valid signature there is a second one,
with the other number `s` subtracted from the order of the curve; the one whose `s` is at most
half the order is the low one, and only that one is accepted and produced.
-/

namespace WitnessSigning

/-- The octets that a signature signs. -/
abbrev Digest := Octets 32

/-- **A signature**: any pair of numbers of 256 bits. -/
structure Signature where
  r : BitVec 256
  s : BitVec 256
  deriving DecidableEq, Repr

namespace Signature

/-- Whether `s` is at most half the order. -/
def isLow (sig : Signature) : Bool :=
  sig.s.toNat ≤ groupOrder / 2

/-- **The low form**: above half the order, `s` is replaced by its distance from the order. -/
def normalized (sig : Signature) : Signature :=
  if sig.isLow then sig
  else
    let s := sig.s.toNat
    { sig with s := BitVec.ofNat 256 (if s ≤ groupOrder then groupOrder - s else s - groupOrder) }

/-- The number `r` as 32 octets. -/
def rOctets (sig : Signature) : Octets 32 :=
  bigEndian 32 sig.r.toNat

/-- The number `s` as 32 octets. -/
def sOctets (sig : Signature) : Octets 32 :=
  bigEndian 32 sig.s.toNat

/-- **The compact form**: both numbers one behind the other. -/
def compact (sig : Signature) : Octets 64 where
  toList := sig.rOctets.toList ++ sig.sOctets.toList
  length_toList := by simp [sig.rOctets.length_toList, sig.sOctets.length_toList]

/-- Reads the compact form. -/
def ofCompact? (bs : Bytes) : Option Signature :=
  if bs.length = 64 then
    some
      { r := BitVec.ofNat 256 (ofBigEndian (bs.take 32))
        s := BitVec.ofNat 256 (ofBigEndian (bs.drop 32)) }
  else
    none

end Signature

end WitnessSigning
