import WitnessSigning.Proofs.Spend.Unlocking

/-!
# Taking signatures out of a witness that was put together

Signatures are taken out of a witness that ends with the script, and of none at all where there is
no witness yet (`WitnessSigning.Witness.exists_collect`). A witness that is put together from
signatures in place keeps the first of them, as many as the threshold asks for, and taking the
signatures out again finds all that it keeps (`WitnessSigning.Witness.collect_ofSlots`,
`WitnessSigning.Witness.reduceOption_collected`). They may come back in other places, as a
signature is matched to the first key that it fits, but none is lost. If no signature fits a key
in front of its own, the places are the same as well
(`WitnessSigning.Matching.fill_reduceOption`).
-/

namespace WitnessSigning

/-! ### Changing one entry -/

namespace Matching

variable {κ σ : Type} {fits : κ → σ → Bool}

/-- A list around one of its places. -/
theorem exists_around {α : Type} {xs : List α} {x : α} {p : Nat} (h : xs[p]? = some x) :
    ∃ pre post, xs = pre ++ x :: post ∧ ∀ y, xs.set p y = pre ++ y :: post := by
  obtain ⟨hp, rfl⟩ := List.getElem?_eq_some_iff.1 h
  refine ⟨xs.take p, xs.drop (p + 1), ?_, fun y => ?_⟩
  · rw [← List.drop_eq_getElem_cons hp, List.take_append_drop]
  · rw [List.set_eq_take_append_cons_drop, if_pos hp]

/-- **How many signatures there are with one more**: it counts unless there was one in its place. -/
theorem length_reduceOption_set [DecidableEq σ] {slots : List (Option σ)} {p : Nat}
    (hp : p < slots.length) (s : σ) : (slots.set p (some s)).reduceOption.length =
      if slots[p]? = some none then slots.reduceOption.length + 1
      else slots.reduceOption.length := by
  obtain ⟨pre, post, hslots, hset⟩ := exists_around (List.getElem?_eq_getElem hp)
  rw [hset, List.getElem?_eq_getElem hp]
  generalize slots[p] = slot at hslots
  subst hslots
  cases slot with
  | none =>
    simp only [List.reduceOption_append, List.reduceOption_cons_of_some,
      List.reduceOption_cons_of_none, List.length_append, List.length_cons, if_true]
    omega
  | some s' => simp [List.reduceOption_append, List.reduceOption_cons_of_some]

/-- Without one of the entries the others are still there, in their order. -/
theorem reduceOption_set_none_sublist (slots : List (Option σ)) (p : Nat) (slot : Option σ) :
    (slots.set p none).reduceOption.Sublist (slots.set p slot).reduceOption := by
  by_cases hp : p < slots.length
  · obtain ⟨pre, post, -, hset⟩ := exists_around (List.getElem?_eq_getElem hp)
    rw [hset, hset, List.reduceOption_append, List.reduceOption_append]
    refine List.Sublist.append (List.Sublist.refl _) ?_
    cases slot with
    | none => exact List.Sublist.refl _
    | some s => exact List.sublist_cons_self s _
  · rw [List.set_eq_of_length_le (Nat.not_lt.1 hp), List.set_eq_of_length_le (Nat.not_lt.1 hp)]

/-- **The first signatures**: the entries of the first `m` of them stay, the others are emptied. -/
def keep : Nat → List (Option σ) → List (Option σ)
  | _, [] => []
  | m, none :: slots => none :: keep m slots
  | 0, some _ :: slots => none :: keep 0 slots
  | m + 1, some s :: slots => some s :: keep m slots

theorem reduceOption_keep (m : Nat) (slots : List (Option σ)) :
    (keep m slots).reduceOption = slots.reduceOption.take m := by
  induction slots generalizing m with
  | nil => rw [keep, List.reduceOption_nil, List.take_nil]
  | cons slot slots ih =>
    cases slot with
    | none => rw [keep, List.reduceOption_cons_of_none, List.reduceOption_cons_of_none, ih]
    | some s =>
      cases m with
      | zero => rw [keep, List.reduceOption_cons_of_none, ih, List.take_zero, List.take_zero]
      | succ m =>
        rw [keep, List.reduceOption_cons_of_some, List.reduceOption_cons_of_some, ih,
          List.take_succ_cons]

/-- **An entry stays** if fewer than `m` signatures are in front of it. -/
theorem getElem?_keep (m : Nat) (slots : List (Option σ)) (j : Nat) :
    (keep m slots)[j]? =
      slots[j]?.map fun slot => if (slots.take j).reduceOption.length < m then slot else none := by
  induction slots generalizing m j with
  | nil => rw [keep]; rfl
  | cons slot slots ih =>
    cases j with
    | zero =>
      cases slot with
      | none => exact congrArg some (ite_self none).symm
      | some s => cases m <;> simp [keep]
    | succ j =>
      cases slot with
      | none => simp [keep, ih, List.reduceOption_cons_of_none]
      | some s => cases m <;> simp [keep, ih, List.reduceOption_cons_of_some]

theorem length_keep (m : Nat) (slots : List (Option σ)) : (keep m slots).length = slots.length := by
  induction slots generalizing m with
  | nil => rw [keep]
  | cons slot slots ih => cases slot <;> cases m <;> simp [keep, ih]

theorem getElem?_of_keep {m : Nat} {slots : List (Option σ)} {j : Nat} {s : σ}
    (h : (keep m slots)[j]? = some (some s)) : slots[j]? = some (some s) := by
  rw [getElem?_keep, Option.map_eq_some_iff] at h
  obtain ⟨slot, hslot, hs⟩ := h
  split at hs
  · rw [hslot, hs]
  · cases hs

theorem InPlace.keep {slots : List (Option σ)} {ks : List κ} (h : InPlace fits slots ks) (m : Nat) :
    InPlace fits (keep m slots) ks := by
  rw [inPlace_iff] at h ⊢
  exact ⟨(length_keep m slots).trans h.1, fun j k s hk hj => h.2 j k s hk (getElem?_of_keep hj)⟩

/-- What was emptied before an entry is added would not have been among the first ones afterwards.
-/
theorem take_reduceOption_set_keep (m : Nat) (slots : List (Option σ)) (p : Nat) (s : σ) :
    ((keep m slots).set p (some s)).reduceOption.take m =
      (slots.set p (some s)).reduceOption.take m := by
  induction slots generalizing m p with
  | nil => rw [keep]
  | cons slot slots ih =>
    cases m with
    | zero => rw [List.take_zero, List.take_zero]
    | succ m =>
      -- only signatures behind the first `m` were emptied, and those are cut off here as well
      have htake : ∀ {k : Nat}, m ≤ k →
          (slots.reduceOption.take k).take m = slots.reduceOption.take m := by
        intro k hk
        rw [List.take_take, Nat.min_eq_left hk]
      cases slot with
      | none =>
        cases p with
        | zero =>
          simp [keep, List.reduceOption_cons_of_some, reduceOption_keep, htake (Nat.le_succ m)]
        | succ p => simpa [keep, List.reduceOption_cons_of_none] using ih (m + 1) p
      | some s' =>
        cases p with
        | zero =>
          simp [keep, List.reduceOption_cons_of_some, reduceOption_keep, htake (Nat.le_refl m)]
        | succ p => simpa [keep, List.reduceOption_cons_of_some] using ih m p

end Matching

namespace Witness

open Matching

/-! ### When signatures are taken out -/

/-- To end with the script, a witness has to have an item in front of it. -/
theorem endsWith_iff {witness : Witness} {script : RedeemScript} :
    EndsWith witness script ↔ 2 ≤ witness.length ∧ witness.getLast? = some script.bytes := by
  rw [EndsWith]
  match witness with
  | [] => simp
  | [item] => simp
  | first :: second :: items => simp

/-- **The items of a witness** that ends with the script are matched to the keys, as far as they are
signatures. -/
theorem collect_of_endsWith {witness : Witness} {script : RedeemScript} (digest : Digest)
    (h : EndsWith witness script) : collect witness script digest =
      .ok (fill (Signature.accepts · digest) ((inner witness).filterMap Signature.ofItem?)
        script.keys) := by
  have hne : witness ≠ [] := by
    rintro rfl
    cases h
  rw [collect, if_neg hne, if_pos h]

/-- **What is collected**: nothing from an empty witness, and from any other one what its items are
matched to. -/
theorem collect_cases {witness : Witness} {script : RedeemScript} {digest : Digest} {slots : Slots}
    (h : collect witness script digest = .ok slots) :
    witness = [] ∧ slots = (script.keys.map fun _ => none) ∨ EndsWith witness script ∧
      slots = fill (Signature.accepts · digest) ((inner witness).filterMap Signature.ofItem?)
        script.keys := by
  rw [collect] at h
  split at h
  · next hnil =>
    cases h
    exact .inl ⟨hnil, rfl⟩
  · split at h
    · next hends =>
      cases h
      exact .inr ⟨hends, rfl⟩
    · cases h

/-- **Signatures are collected** unless there is a witness that ends in something else. -/
theorem exists_collect {witness : Witness} {script : RedeemScript} (digest : Digest)
    (h : ¬(witness ≠ [] ∧ (witness.length < 2 ∨ witness.getLast? ≠ some script.bytes))) :
    ∃ slots, collect witness script digest = .ok slots := by
  by_cases hnil : witness = []
  · rw [collect, if_pos hnil]
    exact ⟨_, rfl⟩
  · obtain ⟨hlength, hlast⟩ := not_or.1 (not_and.1 h hnil)
    exact ⟨_, collect_of_endsWith _ (endsWith_iff.2 ⟨Nat.not_lt.1 hlength, not_not.1 hlast⟩)⟩

theorem collect_eq_error {witness : Witness} {script : RedeemScript} (digest : Digest)
    (h : witness ≠ [] ∧ (witness.length < 2 ∨ witness.getLast? ≠ some script.bytes)) :
    collect witness script digest = .error .witnessScript := by
  have hends : ¬EndsWith witness script := by
    rw [endsWith_iff, not_and_or, Nat.not_le]
    exact h.2
  rw [collect, if_neg h.1, if_neg hends]

/-! ### Which signatures are found -/

theorem filterMap_ofItem?_map_toItem (sigs : List Signature) :
    (sigs.map Signature.toItem).filterMap Signature.ofItem? = sigs := by
  have hread : ∀ sig ∈ sigs, (Signature.ofItem? ∘ Signature.toItem) sig = some sig :=
    fun sig _ => Signature.ofItem?_toItem sig
  rw [List.filterMap_map, List.filterMap_congr hread, List.filterMap_some]

/-- Items that are read as signatures are those that would be written for them. -/
theorem map_toItem_filterMap_sublist (items : List Bytes) :
    ((items.filterMap Signature.ofItem?).map Signature.toItem).Sublist items := by
  induction items with
  | nil => exact List.Sublist.refl _
  | cons item items ih =>
    rw [List.filterMap_cons]
    split
    · exact ih.cons item
    · next sig h =>
      rw [Signature.ofItem?_eq_some_iff.1 h]
      exact ih.cons_cons _

/-- Only the first signatures, as many as the threshold asks for, matter to the witness. -/
theorem ofSlots_congr {script : RedeemScript} {slots slots' : Slots}
    (h : slots.reduceOption.take script.threshold = slots'.reduceOption.take script.threshold) :
    ofSlots script slots = ofSlots script slots' := by
  have hl := congrArg List.length h
  rw [List.length_take, List.length_take] at hl
  have hmissing : script.threshold - slots.reduceOption.length =
      script.threshold - slots'.reduceOption.length := by omega
  rw [ofSlots, ofSlots, signatureItems_eq, signatureItems_eq, h, hmissing]

theorem filterMap_signatureItems (m : Nat) (slots : Slots) :
    (signatureItems m slots).filterMap Signature.ofItem? = slots.reduceOption.take m := by
  rw [signatureItems_eq, List.filterMap_append, filterMap_ofItem?_map_toItem,
    List.filterMap_replicate_of_none Signature.ofItem?_nil, List.append_nil]

theorem inner_ofSlots (script : RedeemScript) (slots : Slots) :
    inner (ofSlots script slots) = signatureItems script.threshold slots :=
  inner_layout _ _ _

theorem length_signatureItems (m : Nat) (slots : Slots) : (signatureItems m slots).length = m := by
  rw [signatureItems_eq, List.length_append, List.length_map, List.length_take,
    List.length_replicate]
  omega

theorem length_bytes (script : RedeemScript) :
    script.bytes.length = 34 * script.keys.length + 3 := by
  have hkeys : ∀ keys : List PublicKey,
      (keys.flatMap fun key => Opcode.pushKey :: key.bytes).length = 34 * keys.length := by
    intro keys
    induction keys with
    | nil => rfl
    | cons key keys ih =>
      rw [List.flatMap_cons, List.length_append, ih, List.length_cons, List.length_cons,
        PublicKey.bytes, key.encoding.length_toList]
      omega
  rw [RedeemScript.bytes, RedeemScript.layout, List.length_cons, List.length_append, hkeys]
  rfl

/-- **A witness that was put together is short**, and so are its items. -/
theorem length_ofSlots_le (script : RedeemScript) (slots : Slots) :
    (ofSlots script slots).length ≤ 17 ∧ ∀ bs ∈ ofSlots script slots, bs.length ≤ 513 := by
  have hm := script.threshold_le.trans script.length_le
  have hn : script.keys.length ≤ 15 := script.length_le
  refine ⟨?_, fun bs hbs => ?_⟩
  · rw [ofSlots, List.length_cons, List.length_append, length_signatureItems]
    exact Nat.succ_le_succ (Nat.succ_le_succ hm)
  · rw [ofSlots, signatureItems_eq] at hbs
    rcases List.mem_cons.1 hbs with rfl | hbs
    · exact Nat.zero_le _
    rcases List.mem_append.1 hbs with hbs | hbs
    · rcases List.mem_append.1 hbs with hbs | hbs
      · obtain ⟨sig, -, rfl⟩ := List.mem_map.1 hbs
        exact (Signature.length_toItem_le sig).trans (by decide)
      · rw [(List.mem_replicate.1 hbs).2]
        exact Nat.zero_le _
    · -- 34 octets for each of at most 15 keys, and three more
      rw [List.mem_singleton.1 hbs, length_bytes]
      omega

/-- **The signatures in a witness that was put together** are matched to the keys anew. -/
theorem collect_ofSlots (script : RedeemScript) (slots : Slots) (digest : Digest) :
    collect (ofSlots script slots) script digest =
      .ok (fill (Signature.accepts · digest) (slots.reduceOption.take script.threshold)
        script.keys) := by
  have hend : EndsWith (ofSlots script slots) script := List.getLast?_concat
  rw [collect_of_endsWith _ hend, inner_ofSlots, filterMap_signatureItems]

/-- **Whatever was collected is in place.** -/
theorem inPlace_collect {witness : Witness} {script : RedeemScript} {digest : Digest}
    {slots : Slots} (h : collect witness script digest = .ok slots) :
    InPlace (Signature.accepts · digest) slots script.keys := by
  obtain ⟨-, rfl⟩ | ⟨-, rfl⟩ := collect_cases h
  · exact inPlace_map_none script.keys
  · exact inPlace_fill _ _

/-- **What was collected stands in the witness**, octet for octet and in this order. -/
theorem map_toItem_collect_sublist {witness : Witness} {script : RedeemScript} {digest : Digest}
    {slots : Slots} (h : collect witness script digest = .ok slots) :
    (slots.reduceOption.map Signature.toItem).Sublist (inner witness) := by
  obtain ⟨-, rfl⟩ | ⟨-, rfl⟩ := collect_cases h
  · rw [reduceOption_map_none]
    exact List.nil_sublist _
  · exact ((reduceOption_fill_sublist _ _).map _).trans (map_toItem_filterMap_sublist _)

/-- **No signature that a witness keeps is lost** when they are taken out again. -/
theorem reduceOption_collected {script : RedeemScript} {digest : Digest} {slots : Slots}
    (h : InPlace (Signature.accepts · digest) slots script.keys) :
    (fill (Signature.accepts · digest) (slots.reduceOption.take script.threshold)
      script.keys).reduceOption = slots.reduceOption.take script.threshold :=
  reduceOption_fill (sublistForall₂_of_sublist (List.take_sublist _ _) h.sublistForall₂)

/-! ### Which witnesses are complete -/

/-- **A witness put together from signatures in place is complete** exactly if there are enough of
them. -/
theorem unlocksScript_ofSlots {script : RedeemScript} {digest : Digest} {slots : Slots}
    (h : InPlace (Signature.accepts · digest) slots script.keys) :
    unlocksScript (ofSlots script slots) script digest =
      decide (script.threshold ≤ slots.reduceOption.length) := by
  rw [Bool.eq_iff_iff, decide_eq_true_iff]
  constructor
  · intro hw
    obtain ⟨sigs, hw, -⟩ := unlocksScript_iff.1 hw
    obtain ⟨hl, hw⟩ := laidOut_iff.1 hw
    -- an item that fills up a missing place is never read as a signature
    have hitems : signatureItems script.threshold slots = sigs.map Signature.toItem := by
      rw [← inner_ofSlots, hw, inner_layout]
    have hsigs := filterMap_signatureItems script.threshold slots
    rw [hitems, filterMap_ofItem?_map_toItem] at hsigs
    rw [hsigs, List.length_take] at hl
    omega
  · exact fun hm => unlocksScript_iff_assemble.2
      ⟨slots, h, hm, assemble_eq_ok_iff.2 ⟨h.length_eq.le, rfl⟩⟩

/-- A complete witness has as many signatures as the threshold asks for. -/
theorem length_collect_of_unlocksScript {witness : Witness} {script : RedeemScript}
    {digest : Digest} {slots : Slots} (hw : unlocksScript witness script digest = true)
    (h : collect witness script digest = .ok slots) :
    slots.reduceOption.length = script.threshold := by
  obtain ⟨slots', hslots', hm, hw⟩ := unlocksScript_iff_assemble.1 hw
  obtain ⟨-, rfl⟩ := assemble_eq_ok_iff.1 hw
  rw [collect_ofSlots] at h
  cases h
  rw [reduceOption_collected hslots', List.length_take_of_le hm]

end Witness

end WitnessSigning
