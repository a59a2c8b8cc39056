import WitnessSigning.Proofs.Signature.Equation
import WitnessSigning.Proofs.Spend.Collecting
import WitnessSigning.Proofs.Spend.Commitment
import WitnessSigning.Spend.Input

/-!
# One more signature

A step of signing replaces the witness of one input by the one that is put together from the
signatures found there and the new one (`WitnessSigning.Transaction.spendInput_eq_ok_iff`). What is
signed does not depend on any witness (`WitnessSigning.Transaction.coinDigest_setWitness`), so all
signers of an input sign the same digest.

The main result takes the old witness as it comes, with signatures in other places than their
makers', with more of them than needed or with items that are none: the number of signatures found
grows by one until it reaches the threshold, and never shrinks below what the threshold asks for
(`WitnessSigning.Transaction.spendInput_counts`).
-/

namespace WitnessSigning

namespace RedeemScript

/-- The place of a participant, as no key occurs twice. -/
theorem idxOf?_keys {script : RedeemScript} {participant : PublicKey} {p : Nat}
    (h : script.keys[p]? = some participant) : script.keys.idxOf? participant = some p := by
  obtain ⟨hp, rfl⟩ := List.getElem?_eq_some_iff.1 h
  refine List.findIdx?_eq_some_iff_getElem.2 ⟨hp, beq_self_eq_true _, fun j hj he => ?_⟩
  exact hj.ne ((List.Nodup.getElem_inj_iff script.nodup).1 (eq_of_beq he))

/-- The places of a script hold different keys. -/
theorem place_unique {script : RedeemScript} {participant : PublicKey} {i j : Nat}
    (hi : script.keys[i]? = some participant) (hj : script.keys[j]? = some participant) : i = j :=
  Option.some.inj ((idxOf?_keys hi).symm.trans (idxOf?_keys hj))

end RedeemScript

namespace Transaction

open Matching Witness

/-! ### The input at a place -/

section SetWitness

variable {tx : Transaction} {index : Nat} {witness : Witness}

theorem inputAt_setWitness {input : TxInput} (h : tx.inputAt index = .ok input) :
    (tx.setWitness index witness).inputAt index = .ok { input with witness } := by
  rw [inputAt_eq_ok_iff] at h ⊢
  rw [setWitness, List.getElem?_modify_eq, h]
  rfl

/-- Replacing a witness twice is replacing it by the second one. -/
theorem setWitness_setWitness (witness' : Witness) :
    (tx.setWitness index witness).setWitness index witness' = tx.setWitness index witness' := by
  rw [setWitness, setWitness, List.modify_modify_eq]
  rfl

end SetWitness

/-! ### A step -/

/-- **An input that spends a coin**: it is there, the coin's condition leads to its locking script,
and the outpoint is the coin's. -/
structure Spends (tx : Transaction) (index : Nat) (coin : Coin) (input : TxInput) : Prop where
  inputAt : tx.inputAt index = .ok input
  consistent : coin.Consistent
  source : input.source = coin.outpoint

theorem Spends.setWitness {tx : Transaction} {index : Nat} {coin : Coin} {input : TxInput}
    (h : tx.Spends index coin input) (witness : Witness) :
    (tx.setWitness index witness).Spends index coin { input with witness } :=
  ⟨inputAt_setWitness h.inputAt, h.consistent, h.source⟩

theorem Spends.inputs_ne_nil {tx : Transaction} {index : Nat} {coin : Coin} {input : TxInput}
    (h : tx.Spends index coin input) : tx.inputs ≠ [] := by
  intro hnil
  have hin := inputAt_eq_ok_iff.1 h.inputAt
  rw [hnil] at hin
  cases hin

theorem checkedDigest_eq_ok_iff {tx : Transaction} {index : Nat} {coin : Coin} {digest : Digest} :
    tx.checkedDigest index coin = .ok digest ↔
      (∃ input, tx.Spends index coin input) ∧ tx.coinDigest index coin = .ok digest := by
  rw [checkedDigest, Error.bind_eq_ok]
  constructor
  · rintro ⟨input, hin, h⟩
    split at h
    · next hc =>
      split at h
      · next hs => exact ⟨⟨input, hin, hc, hs⟩, h⟩
      · cases h
    · cases h
  · rintro ⟨⟨input, hin, hc, hs⟩, h⟩
    exact ⟨input, hin, by rwa [if_pos hc, if_pos hs]⟩

/-- **An input that spends a coin** is checked against the coin's condition. -/
theorem Spends.verifyInput {tx : Transaction} {index : Nat} {coin : Coin} {input : TxInput}
    {digest : Digest} (h : tx.Spends index coin input)
    (hd : tx.coinDigest index coin = .ok digest) :
    tx.verifyInput index coin = .ok
      (match coin.condition with
      | .key _ => unlocksKey input.witness coin.locking digest
      | .multisig script => unlocksScript input.witness script digest) := by
  rw [Transaction.verifyInput, h.inputAt]
  show (if coin.Consistent ∧ input.source = coin.outpoint then _ else _) = _
  rw [if_pos ⟨h.consistent, h.source⟩, hd]
  cases coin.condition with
  | key owner => rfl
  | multisig script => rfl

theorem verifyInput_eq {tx : Transaction} {index : Nat} {coin : Coin} {input : TxInput}
    {script : RedeemScript} {digest : Digest} (h : tx.Spends index coin input)
    (hcond : coin.condition = .multisig script) (hd : tx.coinDigest index coin = .ok digest) :
    tx.verifyInput index coin = .ok (unlocksScript input.witness script digest) := by
  rw [h.verifyInput hd, hcond]

/-- **An input with a witness that was put together** is complete if there are enough signatures in
place. -/
theorem verifyInput_ofSlots {tx : Transaction} {index : Nat} {coin : Coin} {input : TxInput}
    {script : RedeemScript} {digest : Digest} (h : tx.Spends index coin input)
    (hcond : coin.condition = .multisig script) (hd : tx.coinDigest index coin = .ok digest)
    {slots : Slots} (hslots : InPlace (Signature.accepts · digest) slots script.keys) :
    (tx.setWitness index (ofSlots script slots)).verifyInput index coin =
      .ok (decide (script.threshold ≤ slots.reduceOption.length)) := by
  rw [verifyInput_eq (h.setWitness _) hcond ((coinDigest_setWitness index coin).trans hd),
    unlocksScript_ofSlots hslots]

section Step

variable {tx tx' : Transaction} {index : Nat} {coin : Coin} {script : RedeemScript}
  {key : PrivateKey} {participant : PublicKey} {p : Nat} {digest : Digest} {sig : Signature}

theorem signedWitness_eq_ok_iff {witness witness' : Witness}
    (hkey : key.publicKey = .ok participant) (hp : script.keys[p]? = some participant)
    (hsign : Signature.sign key digest = .ok sig) :
    signedWitness witness (.multisig script) digest key = .ok witness' ↔
      ∃ slots, collect witness script digest = .ok slots ∧
        ofSlots script (slots.set p (some sig)) = witness' := by
  rw [signedWitness, hkey, Error.bind_eq_ok]
  constructor
  · rintro ⟨_, ⟨⟩, h⟩
    simp only [RedeemScript.idxOf?_keys hp, hsign, Error.bind_eq_ok, assemble_eq_ok_iff] at h
    obtain ⟨slots, hslots, _, ⟨⟩, -, hw⟩ := h
    exact ⟨slots, hslots, hw⟩
  · rintro ⟨slots, hslots, hw⟩
    -- there is one place for each key, so putting together cannot fail
    have hl : (slots.set p (some sig)).length ≤ script.keys.length := by
      rw [List.length_set]
      exact (inPlace_collect hslots).length_eq.le
    refine ⟨participant, rfl, ?_⟩
    simp only [RedeemScript.idxOf?_keys hp, hsign, Error.bind_eq_ok, assemble_eq_ok_iff]
    exact ⟨slots, hslots, sig, rfl, hl, hw⟩

/-- **A step of signing**: the signatures found in the witness and the new one, in its place, make
up the new witness. -/
theorem spendInput_eq_ok_iff (hcond : coin.condition = .multisig script)
    (hkey : key.publicKey = .ok participant) (hp : script.keys[p]? = some participant)
    (hd : tx.coinDigest index coin = .ok digest) (hsign : Signature.sign key digest = .ok sig) :
    tx.spendInput index coin key = .ok tx' ↔
      ∃ input slots, tx.Spends index coin input ∧ collect input.witness script digest = .ok slots ∧
        tx' = tx.setWitness index (ofSlots script (slots.set p (some sig))) := by
  rw [spendInput, hcond]
  simp only [Error.bind_eq_ok, checkedDigest_eq_ok_iff, hd]
  constructor
  · rintro ⟨_, ⟨⟨input, hs⟩, ⟨⟩⟩, input', hin, witness, hw, ⟨⟩⟩
    obtain rfl := Except.ok.inj (hs.inputAt.symm.trans hin)
    obtain ⟨slots, hslots, rfl⟩ := (signedWitness_eq_ok_iff hkey hp hsign).1 hw
    exact ⟨input, slots, hs, hslots, rfl⟩
  · rintro ⟨input, slots, hs, hslots, rfl⟩
    exact ⟨digest, ⟨⟨input, hs⟩, rfl⟩, input, hs.inputAt, _,
      (signedWitness_eq_ok_iff hkey hp hsign).2 ⟨slots, hslots, rfl⟩, rfl⟩

/-- **What one step does to an arbitrary witness.** Of the signatures found before and after it, the
latter are one more than the former, unless the signer's place was taken, up to the threshold; the
input is complete exactly if the threshold is reached, so it remains complete if it was. As long as
nothing has to be dropped, the other signers' items stay in the witness, octet for octet and in
their order. -/
theorem spendInput_counts (hcond : coin.condition = .multisig script)
    (hkey : key.publicKey = .ok participant) (hp : script.keys[p]? = some participant)
    (hd : tx.coinDigest index coin = .ok digest) (hsign : Signature.sign key digest = .ok sig)
    (haccepts : Signature.accepts participant digest sig = true)
    (hspend : tx.spendInput index coin key = .ok tx') :
    ∃ (input input' : TxInput) (before after : Slots),
      (tx.inputAt index = .ok input ∧ tx'.inputAt index = .ok input') ∧
        tx'.coinDigest index coin = .ok digest ∧
        (collect input.witness script digest = .ok before ∧
          collect input'.witness script digest = .ok after) ∧
        after.reduceOption.length =
          (if before[p]? = some none then min script.threshold (before.reduceOption.length + 1)
          else min script.threshold before.reduceOption.length) ∧
        tx'.verifyInput index coin = .ok (decide (after.reduceOption.length = script.threshold)) ∧
        (tx.verifyInput index coin = .ok true → tx'.verifyInput index coin = .ok true) ∧
        ((before.set p (some sig)).reduceOption.length ≤ script.threshold →
          ((before.set p none).reduceOption.map Signature.toItem).Sublist (inner input.witness) ∧
            ((before.set p none).reduceOption.map Signature.toItem).Sublist
              (inner input'.witness)) := by
  obtain ⟨input, before, hs, hbefore, rfl⟩ := (spendInput_eq_ok_iff hcond hkey hp hd hsign).1 hspend
  have hplace := inPlace_collect hbefore
  have hplace' : InPlace (Signature.accepts · digest) (before.set p (some sig)) script.keys :=
    hplace.set hp fun _ h => Option.some.inj h ▸ haccepts
  have hpl : p < before.length := by
    rw [hplace.length_eq]
    exact (List.getElem?_eq_some_iff.1 hp).1
  have hset := length_reduceOption_set hpl sig
  have hafter := reduceOption_collected hplace'
  have hverify := verifyInput_ofSlots hs hcond hd hplace'
  refine ⟨input, _, before, _, ⟨hs.inputAt, inputAt_setWitness hs.inputAt⟩,
    (coinDigest_setWitness index coin).trans hd, ⟨hbefore, collect_ofSlots _ _ _⟩, ?_, ?_,
    fun hv => ?_, fun hshort => ⟨?_, ?_⟩⟩
  · rw [hafter, List.length_take, hset, apply_ite (min _)]
  · rw [hverify, hafter, List.length_take]
    exact congrArg Except.ok (decide_eq_decide.2 (by omega))
  · -- a complete witness has as many signatures as needed, and one more step drops none of them
    rw [verifyInput_eq hs hcond hd] at hv
    have hm := length_collect_of_unlocksScript (Except.ok.inj hv) hbefore
    rw [hverify, hset, hm]
    refine congrArg Except.ok (decide_eq_true ?_)
    split
    · exact Nat.le_succ _
    · exact Nat.le_refl _
  · -- what was found in the old witness stands there, also without the signer's own
    have hsub := reduceOption_set_none_sublist before p before[p]
    rw [List.set_getElem_self] at hsub
    exact (hsub.map _).trans (map_toItem_collect_sublist hbefore)
  · -- nothing is cut off, so the new witness holds an item for each signature
    show List.Sublist _ (inner (ofSlots script (before.set p (some sig))))
    rw [inner_ofSlots, signatureItems_eq, List.take_of_length_le hshort]
    exact ((reduceOption_set_none_sublist before p (some sig)).map _).trans
      (List.sublist_append_left _ _)

end Step

end Transaction

namespace Sample

/-! ### A sample

A coin that one of two keys can spend, and the signature of the first one. -/

/-- The public key of the private key one. -/
def first : PublicKey where
  encoding := Point.compressPair
    (Fin.ofNat fieldPrime 0x79be667ef9dcbbac55a06295ce870b07029bfcdb2dce28d959f2815b16f81798)
    (Fin.ofNat fieldPrime 0x483ada7726a3c4655da4fbfc0e1108a8fd17b448a68554199c47d08ffb10d4b8)
  point := generator
  ofBytes?_encoding := by decide +kernel

/-- The public key of the private key two. -/
def second : PublicKey where
  encoding := Point.compressPair
    (Fin.ofNat fieldPrime 0xc6047f9441ed7d6d3045406e95c07cd85c778e4b8cef3ca7abac09b95c709ee5)
    (Fin.ofNat fieldPrime 0x1ae168fea63dc339a3c58419466ceaeef7f632653266d0e1236431a950cfe52a)
  point := generator.add generator
  ofBytes?_encoding := by decide +kernel

/-- The private key one. -/
def key : PrivateKey where
  scalar := 1
  scalar_ne_zero := by decide
  network := .mainnet
  compressed := true

/-- One of the two keys has to sign. -/
def script : RedeemScript where
  keys := [first, second]
  threshold := 1
  one_le_threshold := by decide
  threshold_le := by decide
  length_le := by decide
  nodup := by decide +kernel

/-- A coin that this script locks. -/
def coin : Coin where
  outpoint := { transaction := Octets.replicate 32 7, index := 1 }
  value := 5
  locking := (SpendingCondition.multisig script).locking
  condition := .multisig script

/-- A transaction that spends the coin, with a witness. -/
def spending (witness : Witness) : Transaction where
  version := 2
  inputs := [{ source := coin.outpoint, unlocking := [], sequence := finalSequence, witness }]
  outputs := []
  lockTime := 0

/-- The digest that is signed for the coin. -/
def digest : Digest :=
  bigEndian 32 0xb353722df9d8c7ce091e5419236a190d160a51709d132446fc991caa33bea4c3

/-- The signature of the private key. -/
def sig : Signature where
  r := 0x9164ad226c505c43b2db91eecf8789cfbcd5eb562b4aebec0ba0d4be3a626279
  s := 0x0b0393db8283097da30b2c41a30b238e9c21fa5d6f0a559bacb99c3b94c3705f

/-- The public key, the digest and the signature of the sample, and that the
other key does not accept it. -/
theorem computed :
    key.publicKey = .ok first ∧ (spending []).coinDigest 0 coin = .ok digest ∧
      Signature.sign key digest = .ok sig ∧ Signature.accepts second digest sig = false := by
  decide +kernel

theorem publicKey_key : key.publicKey = .ok first := computed.1

theorem sign_key : Signature.sign key digest = .ok sig := computed.2.2.1

theorem accepts_first : Signature.accepts first digest sig = true := by
  obtain ⟨participant, hkey, haccepts⟩ := Signature.exists_accepts sign_key
  obtain rfl := Except.ok.inj (publicKey_key.symm.trans hkey)
  exact haccepts

theorem accepts_second : Signature.accepts second digest sig = false := computed.2.2.2

theorem coinDigest_spending (witness : Witness) :
    (spending witness).coinDigest 0 coin = .ok digest := by
  have hset : spending witness = (spending []).setWitness 0 witness := rfl
  rw [hset, Transaction.coinDigest_setWitness, computed.2.1]

theorem spends_spending (witness : Witness) :
    (spending witness).Spends 0 coin
      { source := coin.outpoint, unlocking := [], sequence := finalSequence, witness } :=
  ⟨rfl, rfl, rfl⟩

theorem place_first : script.keys[0]? = some first := rfl

end Sample

namespace Transaction

open Witness

/-- A witness with an item that is no signature is replaced by a complete one. -/
theorem spendInput_counts_junk :
    ∃ (tx' : Transaction) (input' : TxInput) (after : Slots),
      (Sample.spending [[], [0xff], Sample.script.bytes]).spendInput 0 Sample.coin Sample.key =
          .ok tx' ∧
        tx'.inputAt 0 = .ok input' ∧
        collect input'.witness Sample.script Sample.digest = .ok after ∧
        after.reduceOption.length = 1 ∧ tx'.verifyInput 0 Sample.coin = .ok true := by
  have hcollect : collect [[], [0xff], Sample.script.bytes] Sample.script Sample.digest =
      .ok [none, none] := by decide +kernel
  have hspends := Sample.spends_spending [[], [0xff], Sample.script.bytes]
  have hd := Sample.coinDigest_spending [[], [0xff], Sample.script.bytes]
  have hspend := (spendInput_eq_ok_iff rfl Sample.publicKey_key Sample.place_first hd
    Sample.sign_key).2 ⟨_, _, hspends, hcollect, rfl⟩
  obtain ⟨input, input', before, after, ⟨hin, hin'⟩, -, ⟨hbefore, hafter⟩, hcount, hverify, -, -⟩ :=
    spendInput_counts rfl Sample.publicKey_key Sample.place_first hd Sample.sign_key
      Sample.accepts_first hspend
  obtain rfl := Except.ok.inj (hspends.inputAt.symm.trans hin)
  obtain rfl := Except.ok.inj (hcollect.symm.trans hbefore)
  have hone : after.reduceOption.length = 1 := hcount
  refine ⟨_, input', after, hspend, hin', hafter, hone, ?_⟩
  rw [hverify, hone]
  rfl

end Transaction

end WitnessSigning
