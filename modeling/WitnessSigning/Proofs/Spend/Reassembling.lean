import WitnessSigning.Proofs.Spend.Signing

/-!
# Putting a witness together again

A signer takes the signatures out of a witness and puts it together from them. Done again, this
changes nothing: what was taken out is in place, and what is put together from signatures in place
is found again (`WitnessSigning.Witness.reassemble_ofSlots`). The places themselves may change. A
signature that several keys accept is given to the first of them that is left, which need not be
the key it was in place for (`WitnessSigning.Sample.shadowed`). But only the order of the
signatures is written, so the equality is that of witnesses and not that of the entries.

Complete witnesses are among those put together from signatures in place, so
they stay as they are too.
-/

namespace WitnessSigning

namespace Matching

variable {κ σ : Type} {fits : κ → σ → Bool}

/-- Entries in place for the first keys are those of entries in place for all keys. -/
theorem exists_inPlace {slots : List (Option σ)} {ks : List κ}
    (hlength : slots.length ≤ ks.length)
    (h : ∀ (j : Nat) (k : κ) (s : σ), ks[j]? = some k → slots[j]? = some (some s) →
      fits k s = true) :
    ∃ slots', InPlace fits slots' ks ∧ slots'.reduceOption = slots.reduceOption := by
  refine ⟨slots ++ List.replicate (ks.length - slots.length) none, inPlace_iff.2 ⟨?_, ?_⟩, ?_⟩
  · rw [List.length_append, List.length_replicate]
    omega
  · intro j k s hk hs
    refine h j k s hk ?_
    rw [List.getElem?_append] at hs
    split at hs
    · exact hs
    · cases List.eq_of_mem_replicate (List.mem_of_getElem? hs)
  · rw [List.reduceOption_append, List.reduceOption_replicate_none, List.append_nil]

end Matching

namespace Witness

open Matching

variable {script : RedeemScript} {digest : Digest}

/-- **Putting a witness together again** from the signatures that are found in it. -/
def reassemble (script : RedeemScript) (digest : Digest) (witness : Witness) :
    Except Error Witness := do
  assemble script (← collect witness script digest)

/-- **A witness put together from signatures in place** stays as it is. -/
theorem reassemble_ofSlots {slots : Slots}
    (h : InPlace (Signature.accepts · digest) slots script.keys) :
    reassemble script digest (ofSlots script slots) = .ok (ofSlots script slots) := by
  refine Error.bind_eq_ok.2 ⟨_, collect_ofSlots script slots digest, assemble_eq_ok_iff.2 ⟨?_, ?_⟩⟩
  · rw [length_fill]
  · refine ofSlots_congr ?_
    rw [reduceOption_collected h, List.take_take, Nat.min_self]

/-- The same with fewer entries than keys: those that are missing are empty. -/
theorem reassemble_assembled {slots : Slots} {witness : Witness}
    (hw : assemble script slots = .ok witness)
    (h : ∀ (j : Nat) (key : PublicKey) (sig : Signature), script.keys[j]? = some key →
      slots[j]? = some (some sig) → Signature.accepts key digest sig = true) :
    reassemble script digest witness = .ok witness := by
  obtain ⟨hlength, rfl⟩ := assemble_eq_ok_iff.1 hw
  obtain ⟨slots', hplace, hsame⟩ := exists_inPlace hlength h
  have hslots : ofSlots script slots = ofSlots script slots' := ofSlots_congr (by rw [hsame])
  rw [hslots]
  exact reassemble_ofSlots hplace

/-- **Putting together again settles at once.** Whatever signatures are collected, the witness
that is put together from them stays as it is. A complete witness holds as many signatures as the
threshold asks for and is put together from these. And a witness put together from signatures that
the keys of their own entries accept stays as it is, whatever other keys accept them. -/
theorem reassemble_stable (script : RedeemScript) (digest : Digest) :
    (∀ (witness : Witness) (slots : Slots), collect witness script digest = .ok slots →
        ∃ witness', assemble script slots = .ok witness' ∧
          reassemble script digest witness' = .ok witness') ∧
      (∀ witness : Witness, unlocksScript witness script digest = true →
        ∃ slots, collect witness script digest = .ok slots ∧
          slots.reduceOption.length = script.threshold ∧ assemble script slots = .ok witness) ∧
      ∀ (slots : Slots) (witness : Witness), assemble script slots = .ok witness →
        (∀ (j : Nat) (key : PublicKey) (sig : Signature), script.keys[j]? = some key →
          slots[j]? = some (some sig) → Signature.accepts key digest sig = true) →
        reassemble script digest witness = .ok witness := by
  refine ⟨fun witness slots h => ?_, fun witness h => ?_, fun slots witness => reassemble_assembled⟩
  · have hplace := inPlace_collect h
    exact ⟨_, assemble_eq_ok_iff.2 ⟨hplace.length_eq.le, rfl⟩, reassemble_ofSlots hplace⟩
  · obtain ⟨slots, hplace, -, hw⟩ := unlocksScript_iff_assemble.1 h
    have hagain := reassemble_assembled hw (inPlace_iff.1 hplace).2
    obtain ⟨collected, hcollect, hassemble⟩ := Error.bind_eq_ok.1 hagain
    exact ⟨collected, hcollect, length_collect_of_unlocksScript h hcollect, hassemble⟩

end Witness

namespace Sample

/-- Another key for which the first key's signature is valid. -/
def shadow : PublicKey where
  encoding := Point.compressPair
    (Fin.ofNat fieldPrime 0x06af799bfabfa7a349ee2f5b01c888c71e96efae98c0af6b76e1bae8ab248a8a)
    (Fin.ofNat fieldPrime 0x0bbe1ee277af22e3215c3e0090ea7b145a1c30074de160a668ce59bb84624a3a)
  point := .affine
    (Fin.ofNat fieldPrime 0x06af799bfabfa7a349ee2f5b01c888c71e96efae98c0af6b76e1bae8ab248a8a)
    (Fin.ofNat fieldPrime 0x0bbe1ee277af22e3215c3e0090ea7b145a1c30074de160a668ce59bb84624a3a)
  ofBytes?_encoding := by decide +kernel

theorem accepts_shadow : Signature.accepts shadow digest sig = true := by decide +kernel

/-- One of two keys has to sign, and the other one stands in front of the first key. -/
def shadowed : RedeemScript :=
  { script with
    keys := [shadow, first]
    threshold_le := by decide
    length_le := by decide
    nodup := by decide +kernel }

end Sample

namespace Witness

open Matching

/-- A signature that stands for the second key is found for the first one, which accepts it as
well, and the witness stays the same. -/
theorem reassemble_stable_shadowed :
    let slots : Slots := [none, some Sample.sig]
    let collected : Slots := [some Sample.sig, none]
    ∃ witness, assemble Sample.shadowed slots = .ok witness ∧
      unlocksScript witness Sample.shadowed Sample.digest = true ∧
      collect witness Sample.shadowed Sample.digest = .ok collected ∧
      collected.reduceOption.length = 1 ∧ assemble Sample.shadowed collected = .ok witness ∧
      reassemble Sample.shadowed Sample.digest witness = .ok witness ∧
      ∃ witness', assemble Sample.shadowed collected = .ok witness' ∧
        reassemble Sample.shadowed Sample.digest witness' = .ok witness' := by
  intro slots collected
  have hw : assemble Sample.shadowed slots = .ok (ofSlots Sample.shadowed slots) := rfl
  have haccepts : ∀ (j : Nat) (key : PublicKey) (sig : Signature),
      Sample.shadowed.keys[j]? = some key → slots[j]? = some (some sig) →
        Signature.accepts key Sample.digest sig = true := by
    intro j key sig hkey hsig
    match j, hkey, hsig with
    | 1, hkey, hsig =>
      cases hkey
      cases hsig
      exact Sample.accepts_first
  have hunlocks :
      unlocksScript (ofSlots Sample.shadowed slots) Sample.shadowed Sample.digest = true :=
    unlocksScript_iff_assemble.2 ⟨slots, inPlace_iff.2 ⟨rfl, haccepts⟩, Nat.le_refl 1, hw⟩
  have hcollect : collect (ofSlots Sample.shadowed slots) Sample.shadowed Sample.digest =
      .ok collected := by
    have hfill :
        fill (Signature.accepts · Sample.digest) [Sample.sig] [Sample.shadow, Sample.first] =
          collected := by
      rw [fill_cons_cons, if_pos Sample.accepts_shadow]
      rfl
    exact (collect_ofSlots _ _ _).trans (congrArg Except.ok hfill)
  obtain ⟨hagain, hcomplete, hplaced⟩ := reassemble_stable Sample.shadowed Sample.digest
  obtain ⟨_, hslots, hcount, hassemble⟩ := hcomplete _ hunlocks
  cases hcollect.symm.trans hslots
  exact ⟨_, hw, hunlocks, hcollect, hcount, hassemble, hplaced slots _ hw haccepts,
    hagain _ _ hcollect⟩

end Witness

end WitnessSigning
