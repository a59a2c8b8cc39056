import WitnessSigning.Proofs.Script.Layout
import WitnessSigning.Proofs.Spend.Reassembling

/-!
# Witnesses that reveal their script

An output of several keys is locked by a hash only, and the script comes with the witness that
unlocks it, as its last item. So there are two ways to check a witness: against the script, if it is
known, and against the locking script, with the script that the witness reveals. The second way goes
through the octets of the script twice, once to read it and once to hash it. Neither loses anything:
a script is read from its own octets and from no others, so a witness that unlocks a script reveals
that script (`WitnessSigning.Witness.unlocksLocking_iff`).

The first way compares octets where the second one compares hashes. Nothing is assumed of the hash
here: where the two ways come to different answers, the last item of the witness and the octets of
the script are two strings with one hash.
-/

namespace WitnessSigning

namespace SpendingCondition

/-- A locking script is as good as the program in it. -/
theorem locking_eq_iff_program_eq {condition condition' : SpendingCondition} :
    condition.locking = condition'.locking ↔ condition.program = condition'.program := by
  constructor
  · intro h
    obtain ⟨-, h⟩ := List.cons.inj h
    exact (List.cons.inj h).2
  · intro h
    rw [locking, locking, h]

/-- **A locking script is as good as the hash** of the redeem script in it. -/
theorem locking_multisig_eq_iff {script script' : RedeemScript} :
    (multisig script).locking = (multisig script').locking ↔
      sha256 script.bytes = sha256 script'.bytes :=
  locking_eq_iff_program_eq.trans ⟨Octets.ext_toList, congrArg Octets.toList⟩

end SpendingCondition

namespace Witness

open Matching

variable {witness : Witness} {script : RedeemScript} {locking : Bytes} {digest : Digest}

/-- What unlocks a script reveals it. -/
theorem getLast?_of_unlocksScript (h : unlocksScript witness script digest = true) :
    witness.getLast? = some script.bytes := by
  rw [unlocksScript] at h
  simp only [Bool.and_eq_true, beq_iff_eq] at h
  exact h.1.2

/-- **A witness unlocks an output** exactly if it unlocks a script that leads to the locking script.
-/
theorem unlocksLocking_iff : unlocksLocking witness locking digest = true ↔
    ∃ script : RedeemScript, locking = (SpendingCondition.multisig script).locking ∧
      unlocksScript witness script digest = true := by
  rw [unlocksLocking.eq_def]
  constructor
  · intro h
    split at h
    · cases h
    split at h
    · cases h
    next script _ =>
    rw [Bool.and_eq_true, beq_iff_eq] at h
    exact ⟨script, h.1.symm, h.2⟩
  · rintro ⟨script, rfl, h⟩
    have hparse : RedeemScript.parse script.bytes = .ok script := RedeemScript.parse_eq_ok_iff.2 rfl
    simp only [getLast?_of_unlocksScript h, hparse, beq_self_eq_true, Bool.true_and]
    exact h

/-- **Where the two ways differ**, the witness reveals other octets with the same hash. -/
theorem collides_of_ne
    (h : unlocksLocking witness (SpendingCondition.multisig script).locking digest ≠
      unlocksScript witness script digest) :
    ∃ last, witness.getLast? = some last ∧ last ≠ script.bytes ∧
      sha256 last = sha256 script.bytes := by
  cases hscript : unlocksScript witness script digest with
  | true =>
    rw [hscript, unlocksLocking_iff.2 ⟨script, rfl, hscript⟩] at h
    exact absurd rfl h
  | false =>
    rw [hscript, Ne, Bool.not_eq_false, unlocksLocking_iff] at h
    obtain ⟨revealed, hlocking, hrevealed⟩ := h
    refine ⟨revealed.bytes, getLast?_of_unlocksScript hrevealed, fun hbytes => ?_,
      (SpendingCondition.locking_multisig_eq_iff.1 hlocking).symm⟩
    obtain rfl := RedeemScript.bytes_injective hbytes
    rw [hscript] at hrevealed
    cases hrevealed

/-- **Checking against a script and against its locking script agree.** What unlocks a script
unlocks the output that the script locks. An output is unlocked exactly by a witness whose last item
is read as a script that leads to the locking script and is unlocked by the witness. So for a given
script the two answers are the same for all witnesses, unless the last item collides with the octets
of the script. -/
theorem unlocksLocking_agrees_or_collides (digest : Digest) :
    (∀ (witness : Witness) (script : RedeemScript), unlocksScript witness script digest = true →
        unlocksLocking witness (SpendingCondition.multisig script).locking digest = true) ∧
      (∀ (witness : Witness) (locking : Bytes), unlocksLocking witness locking digest = true ↔
        ∃ last script, witness.getLast? = some last ∧ RedeemScript.parse last = .ok script ∧
          locking = (SpendingCondition.multisig script).locking ∧
            unlocksScript witness script digest = true) ∧
      ∀ (witness : Witness) (script : RedeemScript),
        unlocksLocking witness (SpendingCondition.multisig script).locking digest =
            unlocksScript witness script digest ∨
          ∃ last, witness.getLast? = some last ∧ last ≠ script.bytes ∧
            sha256 last = sha256 script.bytes := by
  refine ⟨fun witness script h => unlocksLocking_iff.2 ⟨script, rfl, h⟩, fun witness locking => ?_,
    fun witness script => or_iff_not_imp_left.2 collides_of_ne⟩
  rw [unlocksLocking_iff]
  constructor
  · rintro ⟨script, hlocking, h⟩
    exact ⟨_, script, getLast?_of_unlocksScript h, RedeemScript.parse_eq_ok_iff.2 rfl, hlocking, h⟩
  · rintro ⟨_, script, -, -, hlocking, h⟩
    exact ⟨script, hlocking, h⟩

/-- A witness with the signature of the first of two keys unlocks their script and its output. It
does not unlock another script with the first key in it, nor the output of that one, as the two
scripts do not collide. -/
theorem unlocksLocking_agrees_or_collides_shadowed :
    let witness := ofSlots Sample.script [some Sample.sig, none]
    let locking := (SpendingCondition.multisig Sample.script).locking
    let locking' := (SpendingCondition.multisig Sample.shadowed).locking
    unlocksScript witness Sample.script Sample.digest = true ∧
      unlocksLocking witness locking Sample.digest = true ∧
      unlocksScript witness Sample.shadowed Sample.digest = false ∧
      unlocksLocking witness locking' Sample.digest = false := by
  intro witness locking locking'
  obtain ⟨hunlocks, -, hagree⟩ := unlocksLocking_agrees_or_collides Sample.digest
  have hplace : InPlace (Signature.accepts · Sample.digest) [some Sample.sig, none]
      Sample.script.keys := by
    refine (inPlace_map_none Sample.script.keys).set Sample.place_first fun sig hsig => ?_
    obtain rfl := Option.some.inj hsig
    exact Sample.accepts_first
  have hscript : unlocksScript witness Sample.script Sample.digest = true :=
    unlocksScript_iff_assemble.2 ⟨[some Sample.sig, none], hplace, Nat.le_refl 1, rfl⟩
  have hlast : witness.getLast? = some Sample.script.bytes := getLast?_of_unlocksScript hscript
  have hcollisionFree : sha256 Sample.script.bytes ≠ sha256 Sample.shadowed.bytes := by
    decide +kernel
  have hother : unlocksScript witness Sample.shadowed Sample.digest = false := by
    rw [Bool.eq_false_iff]
    intro h
    have hbytes := Option.some.inj (hlast.symm.trans (getLast?_of_unlocksScript h))
    exact hcollisionFree (congrArg sha256 hbytes)
  refine ⟨hscript, hunlocks _ _ hscript, hother, ?_⟩
  rcases hagree witness Sample.shadowed with hsame | ⟨last, hrevealed, -, hcollide⟩
  · exact hsame.trans hother
  · obtain rfl := Option.some.inj (hlast.symm.trans hrevealed)
    exact absurd hcollide hcollisionFree

end Witness

end WitnessSigning
