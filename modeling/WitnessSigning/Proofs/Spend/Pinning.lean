import WitnessSigning.Proofs.Spend.Revealing

/-!
# What a locking script pins down

The condition of a coin is its spender's claim, and all that the checks compare is the locking
script that it leads to. So two spenders of one output could sign for different conditions as
long as these lead to the same locking script. This takes a collision
(`WitnessSigning.SpendingCondition.locking_eq_iff`): programs of keys and of redeem scripts
have different lengths, the program is the whole hash of the octets of a key or a script, and
these octets tell keys and scripts apart.

Without a collision the condition that passes the checks is therefore the one that the coin was
locked with, and whoever names the same value signs the same digest
(`WitnessSigning.Transaction.condition_pinned`). A claim of any other condition is refused before
anything is signed (`WitnessSigning.Transaction.Spends.refuses_condition`).
-/

namespace WitnessSigning

/-! ### Conditions with one locking script -/

namespace SpendingCondition

/-- **Conditions that collide**: different octets of two keys, or of two redeem
scripts, with one hash. -/
def Collides : SpendingCondition → SpendingCondition → Prop
  | .key k, .key k' => k.bytes ≠ k'.bytes ∧ hash160 k.bytes = hash160 k'.bytes
  | .multisig script, .multisig script' =>
    script.bytes ≠ script'.bytes ∧ sha256 script.bytes = sha256 script'.bytes
  | _, _ => False

/-- Octets that tell things apart do so by their hashes, up to collisions. -/
theorem hash_eq_iff {α β : Type} {octets : α → Bytes} (hash : Bytes → β)
    (hoctets : Function.Injective octets) {a b : α} : hash (octets a) = hash (octets b) ↔
      a = b ∨ octets a ≠ octets b ∧ hash (octets a) = hash (octets b) := by
  by_cases hab : octets a = octets b
  · exact iff_of_true (congrArg hash hab) (.inl (hoctets hab))
  · rw [or_iff_right fun h => hab (congrArg octets h), and_iff_right hab]

variable {condition condition' : SpendingCondition} {k k' : PublicKey} {script : RedeemScript}

/-- **For a key**, the locking script is as good as the hash. -/
theorem locking_key_eq_iff :
    (key k).locking = (key k').locking ↔ hash160 k.bytes = hash160 k'.bytes :=
  locking_eq_iff_program_eq.trans ⟨Octets.ext_toList, congrArg Octets.toList⟩

/-- **A key and a redeem script** never have the same locking script: their
hashes differ in length. -/
theorem locking_key_ne_multisig : (key k).locking ≠ (multisig script).locking := by
  intro h
  have hlength := congrArg List.length (locking_eq_iff_program_eq.1 h)
  rw [program, program, k.hash.length_toList, script.hash.length_toList] at hlength
  cases hlength

/-- **A locking script pins the condition** up to collisions. -/
theorem locking_eq_iff : condition.locking = condition'.locking ↔
    condition = condition' ∨ condition.Collides condition' := by
  cases condition with
  | key k =>
    cases condition' with
    | key k' =>
      rw [locking_key_eq_iff, key.injEq]
      exact hash_eq_iff hash160 fun a b h => PublicKey.ext_encoding (Octets.ext_toList h)
    | multisig script' =>
      exact iff_of_false locking_key_ne_multisig fun h => h.elim nofun id
  | multisig script =>
    cases condition' with
    | key k' => exact iff_of_false locking_key_ne_multisig.symm fun h => h.elim nofun id
    | multisig script' =>
      rw [locking_multisig_eq_iff, multisig.injEq]
      exact hash_eq_iff sha256 fun a b => RedeemScript.bytes_injective

end SpendingCondition

namespace Transaction

variable {tx : Transaction} {index : Nat} {coin coin' : Coin} {input input' : TxInput}
  {digest digest' : Digest}

/-! ### Coins that pass the checks -/

/-- **Coins that one input spends** have the same condition if they have the same locking script. -/
theorem Spends.condition_eq (h : tx.Spends index coin input) (h' : tx.Spends index coin' input')
    (hlocking : coin.locking = coin'.locking)
    (hcollides : ¬coin.condition.Collides coin'.condition) : coin.condition = coin'.condition := by
  refine (SpendingCondition.locking_eq_iff.1 ?_).resolve_right hcollides
  calc coin.condition.locking = coin.locking := h.consistent
    _ = coin'.locking := hlocking
    _ = coin'.condition.locking := h'.consistent.symm

/-- Two coins for one input differ in nothing but their locking scripts, values and conditions. -/
theorem Spends.coin_eq (h : tx.Spends index coin input) (h' : tx.Spends index coin' input')
    (hvalue : coin.value = coin'.value) (hlocking : coin.locking = coin'.locking)
    (hcondition : coin.condition = coin'.condition) : coin = coin' := by
  obtain rfl := Except.ok.inj (h.inputAt.symm.trans h'.inputAt)
  have houtpoint : coin.outpoint = coin'.outpoint := h.source.symm.trans h'.source
  cases coin
  cases coin'
  cases houtpoint
  cases hvalue
  cases hlocking
  cases hcondition
  rfl

/-- **Another condition is refused**, in signing and in verifying, for a coin that is spent. -/
theorem Spends.refuses_condition (h : tx.Spends index coin input) {condition : SpendingCondition}
    (hne : condition ≠ coin.condition) (hcollides : ¬condition.Collides coin.condition) :
    tx.checkedDigest index { coin with condition } = .error .condition ∧
      tx.verifyInput index { coin with condition } = .ok false := by
  have hlocking : ¬{ coin with condition }.Consistent := fun hc =>
    (SpendingCondition.locking_eq_iff.1 (hc.trans h.consistent.symm)).elim hne hcollides
  rw [checkedDigest, Transaction.verifyInput, h.inputAt]
  constructor
  · exact if_neg hlocking
  · exact if_neg fun hc => hlocking hc.1

/-- **The locking script pins the spending condition.** If two coins with the same locking script
pass the checks for the same input, and the keys or scripts in their conditions do not collide,
they have the same condition, and so the same script code. With the same value they have the same
digest to sign, their witnesses are given the same answer, and each key signs both alike. -/
theorem condition_pinned (h : tx.checkedDigest index coin = .ok digest)
    (h' : tx.checkedDigest index coin' = .ok digest') (hvalue : coin.value = coin'.value)
    (hlocking : coin.locking = coin'.locking)
    (hcollides : ¬coin.condition.Collides coin'.condition) :
    coin.condition = coin'.condition ∧ coin.condition.scriptCode = coin'.condition.scriptCode ∧
      tx.coinDigest index coin = tx.coinDigest index coin' ∧ digest = digest' ∧
      tx.verifyInput index coin = tx.verifyInput index coin' ∧
      ∀ key, tx.signInput index coin key = tx.signInput index coin' key := by
  obtain ⟨⟨input, hs⟩, hd⟩ := checkedDigest_eq_ok_iff.1 h
  obtain ⟨⟨input', hs'⟩, hd'⟩ := checkedDigest_eq_ok_iff.1 h'
  have hcondition := hs.condition_eq hs' hlocking hcollides
  obtain rfl := hs.coin_eq hs' hvalue hlocking hcondition
  exact ⟨rfl, rfl, rfl, Except.ok.inj (h.symm.trans h'), rfl, fun _ => rfl⟩

/-- The coin of the sample, and the same coin made from the output that it is: the checks pass for
both, and the witness, which is empty, unlocks neither. -/
theorem condition_pinned_ofOutput :
    let tx := Sample.spending []
    let output : TxOutput := { value := 5, locking := Sample.coin.locking }
    let coin' := Coin.ofOutput Sample.coin.outpoint output (.multisig Sample.script)
    tx.checkedDigest 0 Sample.coin = .ok Sample.digest ∧
      tx.checkedDigest 0 coin' = .ok Sample.digest ∧
      ¬Sample.coin.condition.Collides coin'.condition ∧
      Sample.coin.condition = coin'.condition ∧
      tx.verifyInput 0 Sample.coin = .ok false ∧ tx.verifyInput 0 coin' = .ok false := by
  intro tx output coin'
  have hspends := Sample.spends_spending []
  have hdigest := Sample.coinDigest_spending []
  have hchecked : tx.checkedDigest 0 Sample.coin = .ok Sample.digest :=
    checkedDigest_eq_ok_iff.2 ⟨⟨_, hspends⟩, hdigest⟩
  have hchecked' : tx.checkedDigest 0 coin' = .ok Sample.digest := hchecked
  have hcollides : ¬Sample.coin.condition.Collides coin'.condition := fun h => h.1 rfl
  have hempty : tx.verifyInput 0 Sample.coin = .ok false :=
    (verifyInput_eq hspends rfl hdigest).trans rfl
  obtain ⟨hcondition, -, -, -, hverify, -⟩ := condition_pinned hchecked hchecked' rfl rfl hcollides
  exact ⟨hchecked, hchecked', hcollides, hcondition, hempty, hverify ▸ hempty⟩

end Transaction

end WitnessSigning
