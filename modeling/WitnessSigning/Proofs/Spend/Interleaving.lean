import WitnessSigning.Proofs.Spend.Signing
import WitnessSigning.Proofs.Transaction.Identifier

/-!
# Signing different inputs

Calls to spend inputs of one transaction, each with its own coin and private key, come in any order,
and some of them fail. What a call sees is its own input and what no witness takes part in
(`WitnessSigning.Transaction.AgreeAt`), and it changes nothing but the witness of its own input. So
the calls on one input neither see nor disturb those on others: of a run, they see what they would
see alone (`WitnessSigning.Transaction.spendAll_filter`), and all orders that keep the calls on each
input in sequence lead to the same transaction, with the same outcome for each call
(`WitnessSigning.Transaction.spendAll_interleaves`).

A call that spends the output of a single key completes its input, because the key accepts what it
signs, and no call on another input can change that.
-/

namespace WitnessSigning

/-! ### Calls -/

/-- **A call to spend an input**, with the coin that it is to spend and the key that signs. -/
structure SpendCall where
  index : Nat
  coin : Coin
  key : PrivateKey

namespace SpendCall

/-- What a caller is told: success or the cause of failure. -/
def outcome (call : SpendCall) (tx : Transaction) : Except Error Unit :=
  (tx.spendInput call.index call.coin call.key).map fun _ => ()

/-- The transaction after a call; one that fails leaves it as it was. -/
def apply (call : SpendCall) (tx : Transaction) : Transaction :=
  match tx.spendInput call.index call.coin call.key with
  | .ok tx' => tx'
  | .error _ => tx

/-- A call that succeeds gives the transaction after it. -/
theorem spendInput_eq_ok (call : SpendCall) {tx : Transaction} (h : call.outcome tx = .ok ()) :
    tx.spendInput call.index call.coin call.key = .ok (call.apply tx) := by
  rw [outcome] at h
  rw [apply]
  cases hspend : tx.spendInput call.index call.coin call.key with
  | error e =>
    rw [hspend] at h
    cases h
  | ok tx' => rfl

end SpendCall

/-- **An interleaving**: the calls on each input are those of its sequence, in that order. -/
def Interleaves (parts : Nat → List SpendCall) (calls : List SpendCall) : Prop :=
  ∀ i, calls.filter (·.index = i) = parts i

namespace Transaction

open Witness

/-- **A run**: one call after the other, whether or not they succeed. -/
def spendAll (tx : Transaction) (calls : List SpendCall) : Transaction :=
  calls.foldl (fun tx call => call.apply tx) tx

/-- The calls of a run with their outcomes. -/
def outcomes (tx : Transaction) : List SpendCall → List (SpendCall × Except Error Unit)
  | [] => []
  | call :: calls => (call, call.outcome tx) :: outcomes (call.apply tx) calls

/-! ### What a call sees -/

/-- **Agreement at a place**: everything but the witnesses is the same, and so is the witness of the
input there. -/
structure AgreeAt (i : Nat) (tx tx' : Transaction) : Prop where
  stripped : tx.stripped = tx'.stripped
  input : tx.inputs[i]? = tx'.inputs[i]?

namespace AgreeAt

variable {i : Nat} {tx tx' tx'' : Transaction} {call : SpendCall}

theorem refl (i : Nat) (tx : Transaction) : AgreeAt i tx tx :=
  ⟨rfl, rfl⟩

theorem symm (h : AgreeAt i tx tx') : AgreeAt i tx' tx :=
  ⟨h.stripped.symm, h.input.symm⟩

theorem trans (h : AgreeAt i tx tx') (h' : AgreeAt i tx' tx'') : AgreeAt i tx tx'' :=
  ⟨h.stripped.trans h'.stripped, h.input.trans h'.input⟩

/-- The same input is there, or none for the same reason. -/
theorem inputAt_eq (h : AgreeAt i tx tx') : tx.inputAt i = tx'.inputAt i := by
  have hlength := congrArg (·.inputs.length) h.stripped
  simp only [Transaction.stripped, List.length_map] at hlength
  rw [inputAt, inputAt, h.input, hlength]

theorem checkedDigest_eq (h : AgreeAt i tx tx') (coin : Coin) :
    tx.checkedDigest i coin = tx'.checkedDigest i coin := by
  simp only [checkedDigest, h.inputAt_eq, coinDigest_congr h.stripped]

theorem verifyInput_eq (h : AgreeAt i tx tx') (coin : Coin) :
    tx.verifyInput i coin = tx'.verifyInput i coin := by
  simp only [verifyInput, h.inputAt_eq, coinDigest_congr h.stripped]

end AgreeAt

/-- Transactions that agree everywhere are equal. -/
theorem eq_of_agreeAt {tx tx' : Transaction} (h : ∀ i, AgreeAt i tx tx') : tx = tx' := by
  have hinputs : tx.inputs = tx'.inputs := List.ext_getElem? fun i => (h i).input
  have hstripped := (h 0).stripped
  cases tx
  cases tx'
  simp only [stripped, mk.injEq] at hstripped hinputs ⊢
  exact ⟨hstripped.1, hinputs, hstripped.2.2⟩

/-! ### What a call does -/

section Call

variable {i : Nat} {tx tx' : Transaction} {call : SpendCall}

/-- The witness that a call makes out of the one that is there. -/
def newWitness (tx : Transaction) (call : SpendCall) : Except Error Witness := do
  let digest ← tx.checkedDigest call.index call.coin
  let input ← tx.inputAt call.index
  signedWitness input.witness call.coin.condition digest call.key

theorem spendInput_eq_map (tx : Transaction) (call : SpendCall) :
    tx.spendInput call.index call.coin call.key =
      (tx.newWitness call).map (tx.setWitness call.index) := by
  rw [spendInput, newWitness]
  cases tx.checkedDigest call.index call.coin with
  | error e => rfl
  | ok digest =>
    cases tx.inputAt call.index with
    | error e => rfl
    | ok input => rfl

theorem outcome_eq_map : call.outcome tx = (tx.newWitness call).map fun _ => () := by
  rw [SpendCall.outcome, spendInput_eq_map]
  cases tx.newWitness call with
  | error e => rfl
  | ok witness => rfl

/-- **A call replaces one witness**, or none if it fails. -/
theorem apply_eq : call.apply tx =
    match tx.newWitness call with
    | .ok witness => tx.setWitness call.index witness
    | .error _ => tx := by
  rw [SpendCall.apply, spendInput_eq_map]
  cases tx.newWitness call with
  | error e => rfl
  | ok witness => rfl

/-- **What a call does depends on its own input** and on what no witness takes part in. -/
theorem AgreeAt.newWitness_eq (h : AgreeAt call.index tx tx') :
    tx.newWitness call = tx'.newWitness call := by
  rw [newWitness, newWitness, h.checkedDigest_eq, h.inputAt_eq]

theorem AgreeAt.outcome_eq (h : AgreeAt call.index tx tx') :
    call.outcome tx = call.outcome tx' := by
  rw [outcome_eq_map, outcome_eq_map, h.newWitness_eq]

/-- Agreement at the input of a call is kept by the call. -/
theorem AgreeAt.apply (h : AgreeAt call.index tx tx') :
    AgreeAt call.index (call.apply tx) (call.apply tx') := by
  rw [apply_eq, apply_eq, h.newWitness_eq]
  split
  · refine ⟨?_, ?_⟩
    · rw [stripped_setWitness, stripped_setWitness, h.stripped]
    · rw [setWitness, setWitness, List.getElem?_modify_eq, List.getElem?_modify_eq, h.input]
  · exact h

/-- No call changes anything but witnesses. -/
theorem stripped_apply : (call.apply tx).stripped = tx.stripped := by
  rw [apply_eq]
  split
  · exact stripped_setWitness
  · rfl

/-- **The frame of a call**: it leaves alone every input but its own, and that
one too if it fails. -/
theorem agreeAt_apply (h : call.index = i → call.outcome tx ≠ .ok ()) :
    AgreeAt i tx (call.apply tx) := by
  refine ⟨stripped_apply.symm, ?_⟩
  rw [outcome_eq_map] at h
  rw [apply_eq]
  cases hw : tx.newWitness call with
  | error e => rfl
  | ok witness =>
    rw [hw] at h
    exact (List.getElem?_modify_ne _ _ fun hi => h hi rfl).symm

end Call

/-! ### Runs -/

section Run

variable {i : Nat} {tx tx' : Transaction}

theorem stripped_spendAll (calls : List SpendCall) :
    (tx.spendAll calls).stripped = tx.stripped := by
  induction calls generalizing tx with
  | nil => rfl
  | cons call calls ih => exact ih.trans stripped_apply

/-- **The frame of a run**: an input that none of its calls spends stays as it was. -/
theorem agreeAt_spendAll {calls : List SpendCall}
    (h : ∀ entry ∈ tx.outcomes calls, entry.1.index = i → entry.2 ≠ .ok ()) :
    AgreeAt i tx (tx.spendAll calls) := by
  induction calls generalizing tx with
  | nil => exact .refl i tx
  | cons call calls ih =>
    rw [outcomes, List.forall_mem_cons] at h
    exact (agreeAt_apply h.1).trans (ih h.2)

/-- **What the calls on one input see of a run** is what they see alone. -/
theorem spendAll_filter (h : AgreeAt i tx tx') (calls : List SpendCall) :
    AgreeAt i (tx.spendAll calls) (tx'.spendAll (calls.filter (·.index = i))) ∧
      (tx.outcomes calls).filter (·.1.index = i) =
        tx'.outcomes (calls.filter (·.index = i)) := by
  induction calls generalizing tx tx' with
  | nil => exact ⟨h, rfl⟩
  | cons call calls ih =>
    by_cases hi : call.index = i
    · -- both runs make the call, on the same input
      subst hi
      obtain ⟨hrun, hout⟩ := ih h.apply
      rw [List.filter_cons_of_pos (by simp), outcomes,
        List.filter_cons_of_pos (by simp), outcomes, h.outcome_eq, hout]
      exact ⟨hrun, rfl⟩
    · -- only the first one does, and it does not touch the input
      obtain ⟨hrun, hout⟩ := ih ((agreeAt_apply fun he => absurd he hi).symm.trans h)
      rw [List.filter_cons_of_neg (by simpa using hi), outcomes,
        List.filter_cons_of_neg (by simpa using hi)]
      exact ⟨hrun, hout⟩

/-- **The order of calls on different inputs** makes no difference. -/
theorem spendAll_interleaves {parts : Nat → List SpendCall} {calls calls' : List SpendCall}
    (h : Interleaves parts calls) (h' : Interleaves parts calls') :
    tx.spendAll calls = tx.spendAll calls' := by
  refine eq_of_agreeAt fun i => ?_
  have hrun := (spendAll_filter (.refl i tx) calls).1
  have hrun' := (spendAll_filter (.refl i tx) calls').1
  rw [h i] at hrun
  rw [h' i] at hrun'
  exact hrun.trans hrun'.symm

end Run

/-! ### Outputs of a single key -/

section SingleKey

variable {tx tx' : Transaction} {index : Nat} {coin : Coin} {owner : PublicKey} {digest : Digest}
  {sig : Signature}

theorem verifyInput_ofKey {input : TxInput} (h : tx.Spends index coin input)
    (hcond : coin.condition = .key owner) (hd : tx.coinDigest index coin = .ok digest) :
    (tx.setWitness index (ofKey sig owner)).verifyInput index coin =
      .ok (Signature.accepts owner digest sig) := by
  have hlocking : coin.locking = (SpendingCondition.key owner).locking := by
    rw [← h.consistent, hcond]
  rw [(h.setWitness _).verifyInput ((coinDigest_setWitness index coin).trans hd), hcond, hlocking,
    ← unlocksKey_ofKey]

/-- **Spending an output of a single key** completes the input: its witness is the owner's key
with a signature that this key accepts. -/
theorem verifyInput_spendInput {key : PrivateKey} (hcond : coin.condition = .key owner)
    (h : tx.spendInput index coin key = .ok tx') : tx'.verifyInput index coin = .ok true := by
  rw [spendInput, hcond] at h
  simp only [Error.bind_eq_ok, checkedDigest_eq_ok_iff, signedWitness] at h
  obtain ⟨digest, ⟨⟨input, hspends⟩, hd⟩, -, -, witness, ⟨participant, hpublic, hw⟩, ⟨⟩⟩ := h
  split at hw
  · next howner =>
    obtain ⟨sig, hsign, ⟨⟩⟩ := Error.bind_eq_ok.1 hw
    obtain ⟨participant', hpublic', haccepts⟩ := Signature.exists_accepts hsign
    obtain rfl := Except.ok.inj (hpublic.symm.trans hpublic')
    subst howner
    rw [verifyInput_ofKey hspends hcond hd, haccepts]
  · cases hw

end SingleKey

/-- **Signing different inputs never interferes.** Whatever the calls on each input are, all of
their interleavings lead to the same transaction and tell each call what it would be told without
those on other inputs. Along a run, the identifier and the digests for all coins stay what they
were. A call, wherever it stands in a run, changes the witness of its own input at most, so the
other inputs verify as before. If it spends the output of a single key, its input verifies from
then on, until a call spends this input again. -/
theorem spendAll_noninterference (tx : Transaction) :
    (∀ (parts : Nat → List SpendCall) (calls calls' : List SpendCall),
      Interleaves parts calls → Interleaves parts calls' →
        tx.spendAll calls = tx.spendAll calls' ∧
          ∀ i, (tx.outcomes calls).filter (·.1.index = i) = tx.outcomes (parts i) ∧
            (tx.outcomes calls').filter (·.1.index = i) = tx.outcomes (parts i)) ∧
      (∀ calls : List SpendCall, (tx.spendAll calls).id = tx.id ∧
        ∀ (i : Nat) (coin : Coin), (tx.spendAll calls).coinDigest i coin = tx.coinDigest i coin) ∧
      (∀ call : SpendCall, (call.apply tx).stripped = tx.stripped ∧
        ∀ i ≠ call.index, (call.apply tx).inputs[i]? = tx.inputs[i]? ∧
          ∀ coin : Coin, (call.apply tx).verifyInput i coin = tx.verifyInput i coin) ∧
      ∀ (call : SpendCall) (owner : PublicKey) (later : List SpendCall),
        call.coin.condition = .key owner → call.outcome tx = .ok () →
        (∀ entry ∈ (call.apply tx).outcomes later,
          entry.1.index = call.index → entry.2 ≠ .ok ()) →
        ((call.apply tx).spendAll later).verifyInput call.index call.coin = .ok true := by
  refine ⟨?_, fun calls => ⟨?_, fun i coin => ?_⟩, fun call => ⟨stripped_apply, ?_⟩, ?_⟩
  · intro parts calls calls' h h'
    refine ⟨spendAll_interleaves h h', fun i => ⟨?_, ?_⟩⟩
    · rw [(spendAll_filter (.refl i tx) calls).2, h i]
    · rw [(spendAll_filter (.refl i tx) calls').2, h' i]
  · rw [← id_stripped, stripped_spendAll, id_stripped]
  · exact coinDigest_congr (stripped_spendAll calls) i coin
  · intro i hi
    have hframe : AgreeAt i tx (call.apply tx) := agreeAt_apply fun he => absurd he.symm hi
    exact ⟨hframe.input.symm, fun coin => (hframe.verifyInput_eq coin).symm⟩
  · intro call owner later hcond hok hlater
    rw [← (agreeAt_spendAll hlater).verifyInput_eq]
    exact verifyInput_spendInput hcond (call.spendInput_eq_ok hok)

end Transaction

namespace Sample

/-- A coin that the first key locks alone. -/
def singleCoin : Coin where
  outpoint := { transaction := Octets.replicate 32 7, index := 0 }
  value := 4
  locking := (SpendingCondition.key first).locking
  condition := .key first

/-- A transaction that spends the two coins. -/
def spendingBoth : Transaction where
  version := 2
  inputs := [singleCoin, coin].map fun c =>
    { source := c.outpoint, unlocking := [], sequence := finalSequence, witness := [] }
  outputs := []
  lockTime := 0

end Sample

namespace Transaction

/-- Two calls on the first input, one of which names the other coin and fails, and one on the second
input, in two orders. -/
theorem spendAll_noninterference_both :
    let single : SpendCall := ⟨0, Sample.singleCoin, Sample.key⟩
    let wrong : SpendCall := ⟨0, Sample.coin, Sample.key⟩
    let shared : SpendCall := ⟨1, Sample.coin, Sample.key⟩
    wrong.outcome Sample.spendingBoth = .error (.outpoint 0) ∧
      single.outcome Sample.spendingBoth = .ok () ∧
        Sample.spendingBoth.spendAll [single, wrong, shared] =
          Sample.spendingBoth.spendAll [shared, single, wrong] ∧
          ((single.apply Sample.spendingBoth).spendAll [shared]).verifyInput 0 Sample.singleCoin =
            .ok true := by
  intro single wrong shared
  have hwrong : wrong.outcome Sample.spendingBoth = .error (.outpoint 0) := by decide +kernel
  have hsingle : single.outcome Sample.spendingBoth = .ok () := by decide +kernel
  have horder : Interleaves ([single, wrong, shared].filter fun call => call.index = ·)
      [shared, single, wrong] := fun i =>
    match i with
    | 0 => rfl
    | 1 => rfl
    | _ + 2 => rfl
  obtain ⟨hinterleave, -, -, hkey⟩ := spendAll_noninterference Sample.spendingBoth
  refine ⟨hwrong, hsingle, (hinterleave _ _ _ (fun _ => rfl) horder).1, ?_⟩
  refine hkey single Sample.first [shared] rfl hsingle fun entry hentry hindex => ?_
  obtain rfl := List.mem_singleton.1 hentry
  cases hindex

end Transaction

end WitnessSigning
