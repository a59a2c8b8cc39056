import WitnessSigning.Script.Parse
import WitnessSigning.Script.Locking
import WitnessSigning.Signature.Verify
import WitnessSigning.Transaction.Basic

/-!
# Witnesses

The witness for a single key is a signature and the key. The witness for a redeem script is an
empty item, as many signatures as the threshold asks for, in the order of their keys, and the
script; where signatures are still missing, empty items hold their places. This file puts
witnesses together, takes the signatures out of them again, and checks them.

Signatures are listed in the order of the keys that made them, and some keys may have none.
Matching goes through both lists once: a signature takes the first remaining key that it fits, and
the keys in front of that one are passed for good. `WitnessSigning.Matching.covers` asks whether
every signature finds a key, and `WitnessSigning.Matching.fill` lists, key by key, the signature
that took it.
-/

namespace WitnessSigning.Matching

variable {κ σ : Type}

/-- **Whether every signature finds a key.** -/
def covers (fits : κ → σ → Bool) : List σ → List κ → Bool
  | [], _ => true
  | _ :: _, [] => false
  | s :: ss, k :: ks => if fits k s then covers fits ss ks else covers fits (s :: ss) ks

/-- **The signature that took each key.** A signature that fits no remaining key is left out. -/
def fill (fits : κ → σ → Bool) : List σ → List κ → List (Option σ)
  | [], ks => ks.map fun _ => none
  | s :: ss, ks =>
    match ks.findIdx? (fits · s) with
    | none => fill fits ss ks
    | some j => List.replicate j none ++ some s :: fill fits ss (ks.drop (j + 1))

/-- The result has one entry for each key. -/
theorem length_fill (fits : κ → σ → Bool) (ss : List σ) (ks : List κ) :
    (fill fits ss ks).length = ks.length := by
  induction ss generalizing ks with
  | nil => simp [fill]
  | cons s ss ih =>
    rw [fill]
    split
    · exact ih ks
    · next j hj =>
      obtain ⟨hlt, -⟩ := List.findIdx?_eq_some_iff_getElem.1 hj
      simp only [List.length_append, List.length_replicate, List.length_cons, ih,
        List.length_drop]
      omega

end WitnessSigning.Matching

namespace WitnessSigning

open Matching

/-- One entry for each key of a redeem script: its signature, if there is one. -/
abbrev Slots := List (Option Signature)

namespace Witness

/-! ### Putting together -/

/-- **The witness for a single key.** -/
def ofKey (sig : Signature) (key : PublicKey) : Witness :=
  [sig.toItem, key.bytes]

/-- The items for signatures in place: the first `threshold` of them, and empty
items for those that are missing. -/
def signatureItems (threshold : Nat) (slots : Slots) : List Bytes :=
  let present := ((slots.filterMap fun slot => slot).take threshold).map Signature.toItem
  present ++ List.replicate (threshold - present.length) []

/-- The witness for a redeem script with signatures in place. -/
def ofSlots (script : RedeemScript) (slots : Slots) : Witness :=
  [] :: (signatureItems script.threshold slots ++ [script.bytes])

/-- **The witness for a redeem script**, unless there are more entries than keys. -/
def assemble (script : RedeemScript) (slots : Slots) : Except Error Witness :=
  if slots.length ≤ script.keys.length then .ok (ofSlots script slots)
  else .error (.signatureSlots slots.length script.keys.length)

/-! ### Taking apart -/

/-- The items between the first and the last one. -/
def inner (witness : Witness) : List Bytes :=
  witness.tail.dropLast

/-- Whether a witness has at least two items and ends with a redeem script. -/
def EndsWith (witness : Witness) (script : RedeemScript) : Prop :=
  witness.tail.getLast? = some script.bytes

instance (witness : Witness) (script : RedeemScript) : Decidable (EndsWith witness script) :=
  inferInstanceAs (Decidable (_ = _))

/-- **The signatures in a witness**, each in the place of the key that it was matched to. An empty
witness has none; any other one has to end with the script. -/
def collect (witness : Witness) (script : RedeemScript) (digest : Digest) : Except Error Slots :=
  if witness = [] then .ok (script.keys.map fun _ => none)
  else if EndsWith witness script then
    .ok (fill (Signature.accepts · digest) ((inner witness).filterMap Signature.ofItem?)
      script.keys)
  else
    .error .witnessScript

/-! ### Checking -/

/-- **Whether a witness unlocks a single-key output**: the key in it leads to the locking
script and has made the signature. -/
def unlocksKey (witness : Witness) (locking : Bytes) (digest : Digest) : Bool :=
  match witness with
  | [item, bytes] =>
    match PublicKey.ofBytes bytes with
    | .error _ => false
    | .ok key =>
      (SpendingCondition.key key).locking == locking &&
        (Signature.ofItem? item).any (Signature.accepts key digest)
  | _ => false

/-- **Whether a witness unlocks a redeem script**: exactly as many signatures as the threshold
asks for, each of which finds a key. -/
def unlocksScript (witness : Witness) (script : RedeemScript) (digest : Digest) : Bool :=
  witness.length == script.threshold + 2 && witness.head? == some [] &&
    witness.getLast? == some script.bytes &&
    match (inner witness).mapM Signature.ofItem? with
    | none => false
    | some sigs => covers (Signature.accepts · digest) sigs script.keys

/-- Whether a witness unlocks the multisig output of a locking script, taking
the redeem script from the witness. -/
def unlocksLocking (witness : Witness) (locking : Bytes) (digest : Digest) : Bool :=
  match witness.getLast? with
  | none => false
  | some last =>
    match RedeemScript.parse last with
    | .error _ => false
    | .ok script =>
      (SpendingCondition.multisig script).locking == locking && unlocksScript witness script digest

end Witness

end WitnessSigning
