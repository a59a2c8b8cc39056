import WitnessSigning.Proofs.Spend.Interleaving

/-!
# When spending is refused

Spending an input checks, in this order, that the input is there, that it spends the coin, that
the key is one of those that can sign, and that the witness of an input for several keys ends in
their script (`WitnessSigning.Transaction.refusal?`). Nothing else can go wrong unless signing
itself does, and the witness is written when everything has been checked. So a call in place
leaves a transaction as it was whenever it is refused, and is the call that gives a new
transaction whenever it is not (`WitnessSigning.Transaction.spendInPlace_on`).

Signing without spending makes the first two of these checks, and so does verifying an input,
which has no reason to look at a witness for another coin
(`WitnessSigning.Transaction.verifyThrough`).
-/

namespace WitnessSigning

/-! ### How a step ends -/

section Ends

variable {α β : Type} {step : Except Error α} {refusal : Option ErrorKind}

/-- **A step ends as foreseen**: with a failure of this sort, or with success if
none is foreseen. -/
def Ends (step : Except Error α) : Option ErrorKind → Prop
  | some kind => ∃ e : Error, step = .error e ∧ e.kind = kind
  | none => ∃ a, step = .ok a

theorem Ends.map (h : Ends step refusal) (f : α → β) : Ends (step.map f) refusal := by
  cases refusal with
  | some kind =>
    obtain ⟨e, rfl, hkind⟩ := h
    exact ⟨e, rfl, hkind⟩
  | none =>
    obtain ⟨a, rfl⟩ := h
    exact ⟨f a, rfl⟩

theorem Ends.error_iff (h : Ends step refusal) (kind : ErrorKind) :
    (∃ e : Error, step = .error e ∧ e.kind = kind) ↔ refusal = some kind := by
  constructor
  · rintro ⟨e, rfl, rfl⟩
    cases refusal with
    | some kind =>
      obtain ⟨_, ⟨⟩, rfl⟩ := h
      rfl
    | none =>
      obtain ⟨_, ⟨⟩⟩ := h
  · rintro rfl
    exact h

theorem Ends.ok_iff (h : Ends step refusal) : (∃ a, step = .ok a) ↔ refusal = none := by
  constructor
  · rintro ⟨a, rfl⟩
    cases refusal with
    | some kind =>
      obtain ⟨_, ⟨⟩, -⟩ := h
    | none => rfl
  · rintro rfl
    exact h

end Ends

namespace Transaction

open Witness

variable {tx : Transaction} {index : Nat} {coin : Coin} {key : PrivateKey} {participant : PublicKey}

/-! ### Reasons to refuse -/

/-- The sort of failure that adding a signature to a witness ends in, if it does: the signer is
none of those who can spend, or the witness is another script's. -/
def signerRefusal? (witness : Witness) (participant : PublicKey) :
    SpendingCondition → Option ErrorKind
  | .key owner => if owner ≠ participant then some .invalidPrivateKey else none
  | .multisig script =>
    if participant ∉ script.keys then
      some .invalidPrivateKey
    else if witness ≠ [] ∧ (witness.length < 2 ∨ witness.getLast? ≠ some script.bytes) then
      some .lockingScriptMismatch
    else
      none

/-- **The sort of failure** that spending an input ends in, if it does, for the public key of the
signer. -/
def refusal? (tx : Transaction) (index : Nat) (coin : Coin) (participant : PublicKey) :
    Option ErrorKind :=
  match tx.inputs[index]? with
  | none => some .inputIndexOutOfRange
  | some input =>
    if coin.condition.locking ≠ coin.locking ∨ input.source ≠ coin.outpoint then
      some .lockingScriptMismatch
    else
      signerRefusal? input.witness participant coin.condition

/-! ### Checks before signing -/

section Checks

variable {input : TxInput}

/-- An input that spends another coin, or a coin that nothing leads to, is refused. -/
theorem checkedDigest_eq_error (hin : tx.inputAt index = .ok input)
    (h : coin.condition.locking ≠ coin.locking ∨ input.source ≠ coin.outpoint) :
    ∃ e : Error, tx.checkedDigest index coin = .error e ∧ e.kind = .lockingScriptMismatch := by
  have hcheck : tx.checkedDigest index coin =
      if coin.Consistent then
        if input.source = coin.outpoint then tx.coinDigest index coin else .error (.outpoint index)
      else .error .condition := by
    rw [checkedDigest, hin]
    rfl
  rw [hcheck]
  by_cases hc : coin.Consistent
  · have hs : input.source ≠ coin.outpoint := h.resolve_left (not_not.2 hc)
    rw [if_pos hc, if_neg hs]
    exact ⟨_, rfl, rfl⟩
  · rw [if_neg hc]
    exact ⟨_, rfl, rfl⟩

/-- **An input that spends the coin** has a digest to sign. -/
theorem Spends.exists_checkedDigest (h : tx.Spends index coin input) :
    ∃ digest, tx.coinDigest index coin = .ok digest ∧ tx.checkedDigest index coin = .ok digest := by
  obtain ⟨digest, hd⟩ : ∃ digest, tx.coinDigest index coin = .ok digest := by
    rw [coinDigest]
    exact ⟨_, digest_eq_ok h.inputAt⟩
  exact ⟨digest, hd, checkedDigest_eq_ok_iff.2 ⟨⟨input, h⟩, hd⟩⟩

end Checks

/-! ### The key and the witness -/

section Key

variable {witness : Witness} {digest : Digest} {sig : Signature}

theorem signedWitness_key (hkey : key.publicKey = .ok participant)
    (hsign : Signature.sign key digest = .ok sig) (owner : PublicKey) :
    signedWitness witness (.key owner) digest key =
      if owner = participant then .ok (ofKey sig participant) else .error .foreignKey := by
  rw [signedWitness, hkey]
  show (if owner = participant then _ else _) = _
  by_cases h : owner = participant
  · rw [if_pos h, if_pos h, hsign]
    rfl
  · rw [if_neg h, if_neg h]
    rfl

/-- A key that does not take part is refused before the witness is looked at. -/
theorem signedWitness_eq_error {script : RedeemScript} (hkey : key.publicKey = .ok participant)
    (h : participant ∉ script.keys) :
    signedWitness witness (.multisig script) digest key = .error .notParticipant := by
  rw [signedWitness, hkey, Error.bind_eq_error]
  refine .inr ⟨participant, rfl, ?_⟩
  simp only [List.idxOf?_eq_none_iff.2 h]
  rfl

/-- The signer of a script is told if the witness ends in something else. -/
theorem signedWitness_eq_error_of_collect {script : RedeemScript} {e : Error}
    (hkey : key.publicKey = .ok participant) (hmem : participant ∈ script.keys)
    (hcollect : collect witness script digest = .error e) :
    signedWitness witness (.multisig script) digest key = .error e := by
  obtain ⟨place, hplace⟩ := List.getElem?_of_mem hmem
  rw [signedWitness, hkey, Error.bind_eq_error]
  refine .inr ⟨participant, rfl, ?_⟩
  simp only [RedeemScript.idxOf?_keys hplace, hcollect, Error.bind_eq_error, true_or]

/-- **A signer of the script** adds to the signatures that are collected. -/
theorem exists_signedWitness {script : RedeemScript} {slots : Slots}
    (hkey : key.publicKey = .ok participant) (hmem : participant ∈ script.keys)
    (hsign : Signature.sign key digest = .ok sig)
    (hcollect : collect witness script digest = .ok slots) :
    ∃ witness', signedWitness witness (.multisig script) digest key = .ok witness' := by
  obtain ⟨place, hplace⟩ := List.getElem?_of_mem hmem
  exact ⟨_, (signedWitness_eq_ok_iff hkey hplace hsign).2 ⟨slots, hcollect, rfl⟩⟩

/-- **Adding a signature** ends as the signer and the witness say. -/
theorem signedWitness_ends (hkey : key.publicKey = .ok participant)
    (hsign : Signature.sign key digest = .ok sig) (condition : SpendingCondition) :
    Ends (signedWitness witness condition digest key)
      (signerRefusal? witness participant condition) := by
  cases condition with
  | key owner =>
    rw [signedWitness_key hkey hsign, signerRefusal?]
    by_cases howner : owner = participant
    · rw [if_neg (not_not.2 howner), if_pos howner]
      exact ⟨_, rfl⟩
    · rw [if_pos howner, if_neg howner]
      exact ⟨_, rfl, rfl⟩
  | multisig script =>
    rw [signerRefusal?]
    by_cases hmem : participant ∈ script.keys
    · rw [if_neg (not_not.2 hmem)]
      split
      · next hother =>
        rw [signedWitness_eq_error_of_collect hkey hmem (collect_eq_error digest hother)]
        exact ⟨_, rfl, rfl⟩
      · next hends =>
        obtain ⟨slots, hslots⟩ := exists_collect digest hends
        exact exists_signedWitness hkey hmem hsign hslots
    · rw [if_pos hmem, signedWitness_eq_error hkey hmem]
      exact ⟨_, rfl, rfl⟩

end Key

/-! ### What becomes of a call -/

/-- **A call ends as the checks say**, unless signing fails. -/
theorem newWitness_ends (hkey : key.publicKey = .ok participant)
    (hsign : ∀ digest, tx.coinDigest index coin = .ok digest →
      ∃ sig, Signature.sign key digest = .ok sig) :
    Ends (tx.newWitness ⟨index, coin, key⟩) (tx.refusal? index coin participant) := by
  rw [refusal?, newWitness]
  cases hget : tx.inputs[index]? with
  | none =>
    have hin : tx.inputAt index = .error (.inputIndex index tx.inputs.length) := by
      rw [inputAt, hget]
    rw [checkedDigest, hin]
    exact ⟨_, rfl, rfl⟩
  | some input =>
    have hin : tx.inputAt index = .ok input := inputAt_eq_ok_iff.2 hget
    dsimp only
    by_cases hcoin : coin.condition.locking ≠ coin.locking ∨ input.source ≠ coin.outpoint
    · obtain ⟨e, he, hkind⟩ := checkedDigest_eq_error hin hcoin
      rw [if_pos hcoin, he]
      exact ⟨e, rfl, hkind⟩
    · obtain ⟨hlocking, hsource⟩ := not_or.1 hcoin
      have hspends : tx.Spends index coin input := ⟨hin, not_not.1 hlocking, not_not.1 hsource⟩
      obtain ⟨digest, hd, hchecked⟩ := hspends.exists_checkedDigest
      obtain ⟨sig, hsig⟩ := hsign digest hd
      rw [if_neg hcoin, hchecked, hin]
      exact signedWitness_ends hkey hsig coin.condition

/-- **Spending ends as the checks say**, unless signing fails. -/
theorem spendInput_ends (hkey : key.publicKey = .ok participant)
    (hsign : ∀ digest, tx.coinDigest index coin = .ok digest →
      ∃ sig, Signature.sign key digest = .ok sig) :
    Ends (tx.spendInput index coin key) (tx.refusal? index coin participant) := by
  rw [spendInput_eq_map tx ⟨index, coin, key⟩]
  exact (newWitness_ends hkey hsign).map _

/-- **A call that succeeds** changes the witness of its input and nothing else. -/
theorem exists_set_of_spendInput {tx' : Transaction} (h : tx.spendInput index coin key = .ok tx') :
    ∃ (input : TxInput) (witness : Witness), tx.inputs[index]? = some input ∧
      tx' = { tx with inputs := tx.inputs.set index { input with witness } } := by
  rw [spendInput, Error.bind_eq_ok] at h
  obtain ⟨digest, -, h⟩ := h
  obtain ⟨input, hin, h⟩ := Error.bind_eq_ok.1 h
  obtain ⟨witness, -, ⟨⟩⟩ := Error.bind_eq_ok.1 h
  have hget := inputAt_eq_ok_iff.1 hin
  refine ⟨input, witness, hget, ?_⟩
  rw [setWitness, List.modify_eq_set_getElem?, hget]
  rfl

/-! ### In place -/

/-- **What a caller is left with**, by the witness that was made: the transaction with this
witness, or the one that was there. -/
def leave (tx : Transaction) (index : Nat) : Except Error Witness → Except Error Unit × Transaction
  | .ok witness => (.ok (), tx.setWitness index witness)
  | .error e => (.error e, tx)

namespace Held

theorem on_get_bind {α : Type} (next : Transaction → Held α) (tx : Transaction) :
    Held.on (get >>= next) tx = (next tx).on tx := rfl

/-- A step that only looks at the transaction goes on or leaves it as it is. -/
theorem on_bind_eq_leave {α : Type} {step : Except Error α} {next : α → Held Unit}
    {next' : α → Except Error Witness} (h : ∀ a, (next a).on tx = leave tx index (next' a)) :
    Held.on (MonadExcept.ofExcept step >>= next) tx = leave tx index (step >>= next') := by
  cases step with
  | error e => rfl
  | ok a => exact h a

/-- The last step is to write the witness. -/
theorem on_set_eq_leave (step : Except Error Witness) :
    Held.on (MonadExcept.ofExcept step >>= fun witness => set (tx.setWitness index witness)) tx =
      leave tx index step := by
  cases step with
  | error e => rfl
  | ok witness => rfl

end Held

/-- **A call in place** leaves the transaction with the new witness, or the one that was there. -/
theorem spendInPlace_on (tx : Transaction) (index : Nat) (coin : Coin) (key : PrivateKey) :
    (spendInPlace index coin key).on tx = leave tx index (tx.newWitness ⟨index, coin, key⟩) := by
  rw [spendInPlace, newWitness, Held.on_get_bind]
  refine Held.on_bind_eq_leave fun digest => Held.on_bind_eq_leave fun input => ?_
  rw [signedWitness]
  refine Held.on_bind_eq_leave fun participant => ?_
  cases coin.condition with
  | key owner =>
    dsimp only
    by_cases howner : owner = participant
    · rw [if_pos howner, if_pos howner]
      exact Held.on_bind_eq_leave fun sig => rfl
    · rw [if_neg howner, if_neg howner]
      rfl
  | multisig script =>
    dsimp only
    cases script.keys.idxOf? participant with
    | none => rfl
    | some place =>
      exact Held.on_bind_eq_leave fun slots => Held.on_bind_eq_leave fun sig =>
        Held.on_set_eq_leave _

/-- A call in place leaves what the call gives, and nothing new if it fails. -/
theorem spendInPlace_on_eq (tx : Transaction) (index : Nat) (coin : Coin) (key : PrivateKey) :
    (spendInPlace index coin key).on tx =
      match tx.spendInput index coin key with
      | .ok tx' => (.ok (), tx')
      | .error e => (.error e, tx) := by
  rw [spendInPlace_on, spendInput_eq_map tx ⟨index, coin, key⟩]
  cases tx.newWitness ⟨index, coin, key⟩ with
  | ok witness => rfl
  | error e => rfl

/-! ### Without looking at the witness -/

/-- **Verifying through a look at the witness**: the transaction is given without witnesses, and the
witness of the input is what a look at it gives, if there is a look. -/
def verifyThrough (bare : Transaction) (index : Nat) (coin : Coin) (look : Except Error Witness) :
    Except Error Bool := do
  let input ← bare.inputAt index
  if coin.Consistent ∧ input.source = coin.outpoint then
    let digest ← bare.coinDigest index coin
    let witness ← look
    match coin.condition with
    | .key _ => return unlocksKey witness coin.locking digest
    | .multisig script => return unlocksScript witness script digest
  else
    return false

theorem stripped_stripped (tx : Transaction) : tx.stripped.stripped = tx.stripped := by
  rw [stripped, stripped, List.map_map]
  rfl

theorem inputAt_stripped (tx : Transaction) (index : Nat) :
    tx.stripped.inputAt index =
      (tx.inputAt index).map fun input => { input with witness := [] } := by
  rw [inputAt, inputAt, stripped, List.getElem?_map, List.length_map]
  cases tx.inputs[index]? with
  | none => rfl
  | some input => rfl

/-- A look that gives a witness, at an input that is there. -/
theorem verifyThrough_stripped {input : TxInput} (hin : tx.inputAt index = .ok input)
    (look : Except Error Witness) :
    verifyThrough tx.stripped index coin look =
      if coin.Consistent ∧ input.source = coin.outpoint then do
        let digest ← tx.coinDigest index coin
        let witness ← look
        match coin.condition with
        | .key _ => return unlocksKey witness coin.locking digest
        | .multisig script => return unlocksScript witness script digest
      else
        return false := by
  rw [verifyThrough, inputAt_stripped, hin, coinDigest_congr (stripped_stripped tx)]
  rfl

/-- **Verifying looks at one witness only**, that of its input. -/
theorem verifyInput_eq_verifyThrough (tx : Transaction) (index : Nat) (coin : Coin) :
    tx.verifyInput index coin =
      verifyThrough tx.stripped index coin ((tx.inputAt index).map (·.witness)) := by
  cases hin : tx.inputAt index with
  | error e =>
    rw [verifyInput, verifyThrough, inputAt_stripped, hin]
    rfl
  | ok input =>
    rw [verifyThrough_stripped hin, verifyInput, hin]
    rfl

/-- **A false answer without a look** is given to those inputs whose coin is another
one, or locked by something else. -/
theorem verifyThrough_error_eq_false_iff {input : TxInput} (hin : tx.inputAt index = .ok input)
    (e : Error) : verifyThrough tx.stripped index coin (.error e) = .ok false ↔
      coin.condition.locking ≠ coin.locking ∨ input.source ≠ coin.outpoint := by
  rw [verifyThrough_stripped hin]
  by_cases hcoin : coin.Consistent ∧ input.source = coin.outpoint
  · obtain ⟨digest, hd, -⟩ := Spends.exists_checkedDigest ⟨hin, hcoin.1, hcoin.2⟩
    rw [if_pos hcoin, hd]
    refine iff_of_false (fun h => ?_) (not_or.2 ⟨not_not.2 hcoin.1, not_not.2 hcoin.2⟩)
    cases h
  · rw [if_neg hcoin]
    exact iff_of_true rfl (not_and_or.1 hcoin)

/-- **Signing refuses those inputs** that verifying turns down without a look at the witness. -/
theorem signInput_mismatch_iff {input : TxInput} (hin : tx.inputAt index = .ok input)
    (hsign : ∀ digest, tx.coinDigest index coin = .ok digest →
      ∃ sig, Signature.sign key digest = .ok sig) :
    (∃ e : Error, tx.signInput index coin key = .error e ∧ e.kind = .lockingScriptMismatch) ↔
      ∀ e, verifyThrough tx.stripped index coin (.error e) = .ok false := by
  constructor
  · rintro ⟨e, he, -⟩ e'
    rw [verifyThrough_error_eq_false_iff hin]
    by_contra hcoin
    obtain ⟨hlocking, hsource⟩ := not_or.1 hcoin
    obtain ⟨digest, hd, hchecked⟩ :=
      Spends.exists_checkedDigest ⟨hin, not_not.1 hlocking, not_not.1 hsource⟩
    obtain ⟨sig, hsig⟩ := hsign digest hd
    rw [signInput, hchecked, Error.bind_eq_error] at he
    rcases he with he | ⟨_, ⟨⟩, he⟩
    · cases he
    · rw [hsig] at he
      cases he
  · intro hlook
    have hcoin := (verifyThrough_error_eq_false_iff hin .condition).1 (hlook _)
    obtain ⟨e, he, hkind⟩ := checkedDigest_eq_error hin hcoin
    exact ⟨e, Error.bind_eq_error.2 (.inl he), hkind⟩

/-! ### Exactly when -/

/-- **Spending fails exactly when it should**, as long as signing itself returns. The sort of
failure is the first one that the checks find, in their order, and where they find none the call
succeeds. A call in place that fails leaves the transaction as it was; one that succeeds leaves
the new one, in which the witness of the input is all that may differ.

Verifying an input asks for its witness only if the input spends the coin. Where it does not,
the answer is false even if a look at the witness would fail, and these are the inputs for
which signing ends in a mismatch. -/
theorem spendInput_refuses_exactly (tx : Transaction) (index : Nat) (coin : Coin) (key : PrivateKey)
    (hsign : ∀ digest, tx.coinDigest index coin = .ok digest →
      ∃ sig, Signature.sign key digest = .ok sig) :
    ∃ participant, key.publicKey = .ok participant ∧
      (∀ kind : ErrorKind,
        (∃ e : Error, tx.spendInput index coin key = .error e ∧ e.kind = kind) ↔
          tx.refusal? index coin participant = some kind) ∧
      ((∃ tx', tx.spendInput index coin key = .ok tx') ↔
        tx.refusal? index coin participant = none) ∧
      (∀ e, tx.spendInput index coin key = .error e →
        (spendInPlace index coin key).on tx = (.error e, tx)) ∧
      (∀ tx', tx.spendInput index coin key = .ok tx' →
        (spendInPlace index coin key).on tx = (.ok (), tx') ∧
          ∃ (input : TxInput) (witness : Witness), tx.inputs[index]? = some input ∧
            tx' = { tx with inputs := tx.inputs.set index { input with witness } }) ∧
      tx.verifyInput index coin =
        verifyThrough tx.stripped index coin ((tx.inputAt index).map (·.witness)) ∧
      (index < tx.inputs.length →
        ((∃ e : Error, tx.signInput index coin key = .error e ∧ e.kind = .lockingScriptMismatch) ↔
          ∀ e, verifyThrough tx.stripped index coin (.error e) = .ok false)) := by
  obtain ⟨participant, hkey, -⟩ := key.exists_publicKey
  have hends := spendInput_ends hkey hsign
  refine ⟨participant, hkey, hends.error_iff, hends.ok_iff, ?_, ?_,
    verifyInput_eq_verifyThrough tx index coin, ?_⟩
  · intro e he
    rw [spendInPlace_on_eq, he]
  · intro tx' htx'
    rw [spendInPlace_on_eq, htx']
    exact ⟨rfl, exists_set_of_spendInput htx'⟩
  · intro hlt
    exact signInput_mismatch_iff (inputAt_eq_ok_iff.2 (List.getElem?_eq_getElem hlt)) hsign

/-- A witness that ends in something else than the script is refused and stays, and without
a witness the same call succeeds. -/
theorem spendInput_refuses_exactly_foreign :
    let foreign := Sample.spending [[], [0xff]]
    let fresh := Sample.spending []
    (∃ e : Error, foreign.spendInput 0 Sample.coin Sample.key = .error e ∧
      e.kind = .lockingScriptMismatch ∧
        (spendInPlace 0 Sample.coin Sample.key).on foreign = (.error e, foreign)) ∧
      ∃ tx', fresh.spendInput 0 Sample.coin Sample.key = .ok tx' ∧
        (spendInPlace 0 Sample.coin Sample.key).on fresh = (.ok (), tx') ∧
        ¬∀ e, verifyThrough fresh.stripped 0 Sample.coin (.error e) = .ok false := by
  intro foreign fresh
  have hsign : ∀ witness digest, (Sample.spending witness).coinDigest 0 Sample.coin = .ok digest →
      ∃ sig, Signature.sign Sample.key digest = .ok sig := by
    intro witness digest hd
    obtain rfl := Except.ok.inj ((Sample.coinDigest_spending witness).symm.trans hd)
    exact ⟨_, Sample.sign_key⟩
  obtain ⟨participant, hkey, hkinds, -, hkeep, -⟩ :=
    spendInput_refuses_exactly foreign 0 Sample.coin Sample.key (hsign _)
  obtain rfl := Except.ok.inj (Sample.publicKey_key.symm.trans hkey)
  obtain ⟨participant, hkey', -, hok, -, hleave, -, hmismatch⟩ :=
    spendInput_refuses_exactly fresh 0 Sample.coin Sample.key (hsign _)
  obtain rfl := Except.ok.inj (Sample.publicKey_key.symm.trans hkey')
  have hforeign : foreign.refusal? 0 Sample.coin Sample.first = some .lockingScriptMismatch := by
    decide +kernel
  have hfresh : fresh.refusal? 0 Sample.coin Sample.first = none := by decide +kernel
  obtain ⟨e, he, hkind⟩ := (hkinds _).2 hforeign
  obtain ⟨tx', htx'⟩ := hok.2 hfresh
  refine ⟨⟨e, he, hkind, hkeep e he⟩, tx', htx', (hleave tx' htx').1, fun hlook => ?_⟩
  obtain ⟨e', he', -⟩ := (hmismatch (by decide)).2 hlook
  have hchecked : fresh.checkedDigest 0 Sample.coin = .ok Sample.digest :=
    checkedDigest_eq_ok_iff.2 ⟨⟨_, Sample.spends_spending []⟩, Sample.coinDigest_spending []⟩
  rw [signInput, hchecked, Error.bind_eq_error] at he'
  rcases he' with he' | ⟨_, ⟨⟩, he'⟩
  · cases he'
  · cases Sample.sign_key.symm.trans he'

end Transaction

end WitnessSigning
