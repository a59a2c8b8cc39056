import Mathlib.Tactic.TFAE
import WitnessSigning.Proofs.Key.Public
import WitnessSigning.Proofs.Signature.Der
import WitnessSigning.Proofs.Spend.Matching
import WitnessSigning.Spend.Witness

/-!
# The witnesses that unlock an output

A witness unlocks an output exactly if it is one that is put together for it. For a single key it
is a signature and the key: both are read from one encoding only, and the key leads to the locking
script (`WitnessSigning.Witness.exists_ofKey_of_unlocksKey`).

For a redeem script it is put together from enough signatures in the places of their keys. This
is shown over the layout of such a witness, an empty item, one item for each of as many
signatures as the threshold asks for, and the script
(`WitnessSigning.Witness.unlocksScript_iff`). What the items hold is settled by strict DER, so
the octets of the witness are determined by its signatures; which keys they belong to is settled
by matching, and nothing is assumed there about how many keys a signature may fit.
-/

namespace WitnessSigning.Witness

open Matching

/-! ### A single key -/

section SingleKey

variable {witness : Witness} {locking : Bytes} {digest : Digest} {sig : Signature}
  {owner : PublicKey}

/-- **A signature with the key that made it** unlocks an output of that key. -/
theorem unlocksKey_ofKey :
    unlocksKey (ofKey sig owner) (SpendingCondition.key owner).locking digest =
    Signature.accepts owner digest sig := by
  simp [unlocksKey, ofKey, PublicKey.ofBytes_bytes]

/-- **What unlocks an output of a single key** is a signature and a key that
leads to the locking script. -/
theorem exists_ofKey_of_unlocksKey (h : unlocksKey witness locking digest = true) :
    ∃ (owner : PublicKey) (sig : Signature), witness = ofKey sig owner ∧
      locking = (SpendingCondition.key owner).locking := by
  rw [unlocksKey.eq_def] at h
  split at h
  · next item bytes =>
    split at h
    · cases h
    · next owner howner =>
      rw [Bool.and_eq_true, beq_iff_eq, Option.any_eq_true] at h
      obtain ⟨hlocking, sig, hsig, -⟩ := h
      -- neither the key nor the signature has another encoding
      obtain rfl := PublicKey.bytes_of_ofBytes howner
      obtain rfl := Signature.ofItem?_eq_some_iff.1 hsig
      exact ⟨owner, sig, rfl, hlocking.symm⟩
  · cases h

/-- **A witness unlocks an output of a single key** exactly if it is put together from a key that
leads to the locking script and a signature that this key accepts. So whatever signature is put
together with a key, the output of the key is unlocked if the key accepts it, and only then. -/
theorem unlocksKey_exact (digest : Digest) :
    (∀ (witness : Witness) (locking : Bytes), unlocksKey witness locking digest = true ↔
      ∃ (owner : PublicKey) (sig : Signature), witness = ofKey sig owner ∧
        locking = (SpendingCondition.key owner).locking ∧
          Signature.accepts owner digest sig = true) ∧
      ∀ (owner : PublicKey) (sig : Signature),
        unlocksKey (ofKey sig owner) (SpendingCondition.key owner).locking digest =
          Signature.accepts owner digest sig := by
  refine ⟨fun witness locking => ⟨fun h => ?_, ?_⟩, fun owner sig => unlocksKey_ofKey⟩
  · obtain ⟨owner, sig, rfl, rfl⟩ := exists_ofKey_of_unlocksKey h
    exact ⟨owner, sig, rfl, rfl, unlocksKey_ofKey.symm.trans h⟩
  · rintro ⟨owner, sig, rfl, rfl, h⟩
    exact unlocksKey_ofKey.trans h

end SingleKey

/-! ### Items -/

/-- **An item that holds a signature**: its strict encoding and the octet for the whole transaction.
-/
def IsItem (item : Bytes) (sig : Signature) : Prop :=
  ∃ der, item = der ++ [Signature.commitAll] ∧ Signature.strictDer? der = some true ∧
    Signature.ofDer? der = some sig

theorem isItem_iff {item : Bytes} {sig : Signature} : IsItem item sig ↔ item = sig.toItem := by
  constructor
  · rintro ⟨der, rfl, -, h⟩
    rw [Signature.ofDer?_eq_some_iff.1 h]
    rfl
  · rintro rfl
    exact ⟨sig.toDer, rfl, Signature.strictDer?_toDer sig, Signature.ofDer?_eq_some_iff.2 rfl⟩

theorem forall₂_isItem_iff {items : List Bytes} {sigs : List Signature} :
    List.Forall₂ IsItem items sigs ↔ items = sigs.map Signature.toItem := by
  have hitem : IsItem = fun item sig => item = sig.toItem :=
    funext₂ fun _ _ => propext isItem_iff
  rw [hitem, ← List.forall₂_map_right_iff, List.forall₂_eq_eq_eq]

/-- **Reading all items**: each of them has to hold a signature. -/
theorem mapM_ofItem?_eq_some_iff {items : List Bytes} {sigs : List Signature} :
    items.mapM Signature.ofItem? = some sigs ↔ items = sigs.map Signature.toItem := by
  have hitem : ∀ {item : Bytes} {sig : Signature},
      Signature.ofItem? item = some sig ↔ True ∧ item = sig.toItem :=
    Signature.ofItem?_eq_some_iff.trans (and_iff_right trivial).symm
  exact (mapM_eq_some_iff hitem).trans (and_iff_right fun _ _ => trivial)

/-! ### The layout -/

/-- **The layout of a complete witness**: an empty item, an item for each of as many signatures as
the threshold asks for, and the script. -/
def LaidOut (script : RedeemScript) (sigs : List Signature) (witness : Witness) : Prop :=
  ∃ items, witness = [] :: (items ++ [script.bytes]) ∧ items.length = script.threshold ∧
    List.Forall₂ IsItem items sigs

theorem laidOut_iff {script : RedeemScript} {sigs : List Signature} {witness : Witness} :
    LaidOut script sigs witness ↔ sigs.length = script.threshold ∧
      witness = [] :: (sigs.map Signature.toItem ++ [script.bytes]) := by
  constructor
  · rintro ⟨items, rfl, hl, h⟩
    obtain rfl := forall₂_isItem_iff.1 h
    exact ⟨by simpa using hl, rfl⟩
  · rintro ⟨hl, rfl⟩
    exact ⟨_, rfl, by simpa using hl, forall₂_isItem_iff.2 rfl⟩

theorem inner_layout (first last : Bytes) (items : List Bytes) :
    inner (first :: (items ++ [last])) = items :=
  List.dropLast_concat

/-- **A witness unlocks a script** if it is laid out with signatures each of which finds a key. -/
theorem unlocksScript_iff {script : RedeemScript} {digest : Digest} {witness : Witness} :
    unlocksScript witness script digest = true ↔ ∃ sigs, LaidOut script sigs witness ∧
      covers (Signature.accepts · digest) sigs script.keys = true := by
  simp only [laidOut_iff]
  rw [unlocksScript]
  constructor
  · intro h
    simp only [Bool.and_eq_true, beq_iff_eq] at h
    obtain ⟨⟨⟨hlen, hfirst⟩, hlast⟩, h⟩ := h
    match witness, hfirst with
    | [] :: rest, _ =>
      have hne : rest ≠ [] := by
        rintro rfl
        simp at hlen
      rw [List.getLast?_cons_of_ne_nil hne] at hlast
      obtain ⟨items, rfl⟩ := List.getLast?_eq_some_iff.1 hlast
      rw [inner_layout] at h
      split at h
      · cases h
      · next sigs hsigs =>
        obtain rfl := mapM_ofItem?_eq_some_iff.1 hsigs
        exact ⟨sigs, ⟨by simpa using hlen, rfl⟩, h⟩
  · rintro ⟨sigs, ⟨hlen, rfl⟩, h⟩
    have hsigs := mapM_ofItem?_eq_some_iff.2 (rfl : sigs.map Signature.toItem = _)
    have hlast : ([] :: (sigs.map Signature.toItem ++ [script.bytes])).getLast? =
        some script.bytes := List.getLast?_concat (l := [] :: sigs.map Signature.toItem)
    simp [inner_layout, hsigs, hlast, hlen, h]

/-! ### Putting together -/

/-- The items are those of the first signatures in place, filled up with empty ones. -/
theorem signatureItems_eq (m : Nat) (slots : Slots) :
    signatureItems m slots = (slots.reduceOption.take m).map Signature.toItem ++
      List.replicate (m - slots.reduceOption.length) [] := by
  have hl : m - ((slots.reduceOption.take m).map Signature.toItem).length =
      m - slots.reduceOption.length := by
    rw [List.length_map, List.length_take]
    omega
  rw [← hl]
  rfl

theorem assemble_eq_ok_iff {script : RedeemScript} {slots : Slots} {witness : Witness} :
    assemble script slots = .ok witness ↔
      slots.length ≤ script.keys.length ∧ ofSlots script slots = witness := by
  rw [assemble]
  split
  · next h => simp [h]
  · next h => simp [h]

/-- **With enough signatures in place** a complete witness is put together. -/
theorem laidOut_ofSlots {script : RedeemScript} {slots : Slots}
    (h : script.threshold ≤ slots.reduceOption.length) :
    LaidOut script (slots.reduceOption.take script.threshold) (ofSlots script slots) := by
  refine laidOut_iff.2 ⟨List.length_take_of_le h, ?_⟩
  rw [ofSlots, signatureItems_eq, Nat.sub_eq_zero_of_le h, List.replicate_zero, List.append_nil]

/-! ### What unlocks a script -/

/-- **A witness that unlocks a script is one that is put together** from enough signatures in place.
-/
theorem unlocksScript_iff_assemble {script : RedeemScript} {digest : Digest} {witness : Witness} :
    unlocksScript witness script digest = true ↔
      ∃ slots : Slots, InPlace (Signature.accepts · digest) slots script.keys ∧
        script.threshold ≤ slots.reduceOption.length ∧ assemble script slots = .ok witness := by
  rw [unlocksScript_iff]
  constructor
  · rintro ⟨sigs, hw, hc⟩
    obtain ⟨slots, hslots, rfl⟩ := sublistForall₂_iff_inPlace.1 (covers_iff.1 hc)
    obtain ⟨hl, rfl⟩ := laidOut_iff.1 hw
    refine ⟨slots, hslots, hl.ge, assemble_eq_ok_iff.2 ⟨hslots.length_eq.le, ?_⟩⟩
    rw [ofSlots, signatureItems_eq, List.take_of_length_le hl.le, hl, Nat.sub_self,
      List.replicate_zero, List.append_nil]
  · rintro ⟨slots, hslots, hm, hw⟩
    obtain ⟨-, rfl⟩ := assemble_eq_ok_iff.1 hw
    refine ⟨_, laidOut_ofSlots hm, covers_iff.2 ?_⟩
    exact sublistForall₂_of_sublist (List.take_sublist _ _) hslots.sublistForall₂

/-- **Four ways to say that a witness unlocks a script.** The check accepts it; it is put together
from enough signatures in the places of their keys; it has the layout of a complete witness and its
signatures can be assigned to keys further and further down the list; it has that layout and the
scan from the last signature and the last key accepts its signatures. The two passes agree on all
lists of signatures, however many there are. -/
theorem unlocksScript_tfae (script : RedeemScript) (digest : Digest) (witness : Witness) :
    List.TFAE
        [unlocksScript witness script digest = true,
          ∃ slots : Slots, (slots.length = script.keys.length ∧
              ∀ (j : Nat) (key : PublicKey) (sig : Signature), script.keys[j]? = some key →
                slots[j]? = some (some sig) → Signature.accepts key digest sig = true) ∧
            script.threshold ≤ slots.reduceOption.length ∧ assemble script slots = .ok witness,
          ∃ sigs, LaidOut script sigs witness ∧
            ∃ f : Fin sigs.length → Fin script.keys.length, StrictMono f ∧
              ∀ i, Signature.accepts (script.keys.get (f i)) digest (sigs.get i) = true,
          ∃ sigs, LaidOut script sigs witness ∧
            scan (Signature.accepts · digest) sigs.reverse script.keys.reverse = true] ∧
      ∀ sigs, covers (Signature.accepts · digest) sigs script.keys =
        scan (Signature.accepts · digest) sigs.reverse script.keys.reverse := by
  refine ⟨?_, fun sigs => (scan_reverse sigs script.keys).symm⟩
  tfae_have 1 ↔ 2 := by
    simp only [unlocksScript_iff_assemble, inPlace_iff]
  tfae_have 1 ↔ 3 := by
    simp only [unlocksScript_iff, covers_iff, sublistForall₂_iff_strictMono]
  tfae_have 1 ↔ 4 := by
    simp only [unlocksScript_iff, scan_reverse]
  tfae_finish

end WitnessSigning.Witness
