import WitnessSigning.Proofs.Key.Public
import WitnessSigning.Proofs.Spend.Signing
import WitnessSigning.Proofs.Transaction.RoundTrip

/-!
# Signing sessions

A session takes one input through any number of steps of signing, by any of the participants, in any
order and as often as they like, and the transaction may be written and read again between them.
What comes out depends only on who took part: the witness holds the signatures of the first
participants that did, in the order of the keys, as many as the threshold asks for
(`WitnessSigning.Session.run_eq_assemble`).

The invariant is stated over the signatures of all that have signed so far
(`WitnessSigning.Session.found`), including those that were dropped from the witness: the witness is
the one that is put together from them (`WitnessSigning.Session.stage`). A step that adds a
signature to the witness adds it to that list, because a dropped signature would not be among the
first ones with one more in the list either (`WitnessSigning.Matching.take_reduceOption_set_keep`).
-/

namespace WitnessSigning

open Matching Witness

namespace Session

/-! ### Steps -/

/-- What can happen to a transaction in a session. -/
inductive Step where
  /-- A participant signs. -/
  | sign (key : PrivateKey)
  /-- The transaction is written and read again. -/
  | reread

/-- The transaction after a step. -/
def Step.apply (index : Nat) (coin : Coin) (tx : Transaction) : Step → Except Error Transaction
  | sign key => tx.spendInput index coin key
  | reread => Transaction.decode tx.encode

/-- **A session**: one step after the other, up to the first one that fails. -/
def run (index : Nat) (coin : Coin) (steps : List Step) (tx : Transaction) :
    Except Error Transaction :=
  steps.foldlM (Step.apply index coin) tx

/-- The private keys that sign in a session. -/
def signers (steps : List Step) : List PrivateKey :=
  steps.filterMap fun
    | .sign key => some key
    | .reread => none

/-! ### Who took part -/

/-- The signer with a given public key. -/
def signerOf? (keys : List PrivateKey) (participant : PublicKey) : Option PrivateKey :=
  keys.find? fun key => key.publicKey.toOption == some participant

/-- The signature of a participant that took part. -/
def signatureOf? (keys : List PrivateKey) (digest : Digest) (participant : PublicKey) :
    Option Signature := do
  (Signature.sign (← signerOf? keys participant) digest).toOption

/-- **The places of the participants that took part**, from the smallest one on. -/
def places (script : RedeemScript) (keys : List PrivateKey) : List Nat :=
  (List.range script.keys.length).filter fun j =>
    (script.keys[j]?.bind (signerOf? keys)).isSome

/-- **The outcome of a session**: the signatures of the participants in the smallest places, as many
as the threshold asks for, and no others. -/
def outcome (script : RedeemScript) (digest : Digest) (keys : List PrivateKey) : Slots :=
  (List.range script.keys.length).map fun j =>
    if j ∈ (places script keys).take script.threshold then
      script.keys[j]?.bind (signatureOf? keys digest)
    else
      none

/-- The signatures of all participants that took part. -/
def found (script : RedeemScript) (digest : Digest) (keys : List PrivateKey) : Slots :=
  script.keys.map (signatureOf? keys digest)

/-- **A participant that signs**: the public key is one of the script, a signature is made, and it
is accepted under this key and under no other one of the script. -/
structure Participates (script : RedeemScript) (digest : Digest) (key : PrivateKey) (p : Nat)
    (sig : Signature) : Prop where
  place : ∃ participant, key.publicKey = .ok participant ∧ script.keys[p]? = some participant
  sign : Signature.sign key digest = .ok sig
  accepts : ∀ (i : Nat) (other : PublicKey), script.keys[i]? = some other →
    (Signature.accepts other digest sig = true ↔ i = p)

/-- Keys all of which belong to participants that sign. -/
def Able (script : RedeemScript) (digest : Digest) (keys : List PrivateKey) : Prop :=
  ∀ key ∈ keys, ∃ p sig, Participates script digest key p sig

/-- Only the scalar of a private key matters to its signatures. -/
theorem sign_congr {key key' : PrivateKey} (h : key.scalar = key'.scalar) (digest : Digest) :
    Signature.sign key digest = Signature.sign key' digest := by
  simp only [Signature.sign, Signature.signWithin, PrivateKey.secret, h]

theorem toOption_eq_some_iff {α : Type} {result : Except Error α} {a : α} :
    result.toOption = some a ↔ result = .ok a := by
  cases result with
  | error e => exact ⟨(nomatch ·), (nomatch ·)⟩
  | ok b => exact ⟨fun h => congrArg _ (Option.some.inj h), fun h => congrArg _ (Except.ok.inj h)⟩

theorem mem_of_signerOf? {keys : List PrivateKey} {participant : PublicKey} {key : PrivateKey}
    (h : signerOf? keys participant = some key) :
    key ∈ keys ∧ key.publicKey = .ok participant := by
  have hkey := List.find?_some h
  exact ⟨List.mem_of_find?_eq_some h, toOption_eq_some_iff.1 (eq_of_beq hkey)⟩

theorem exists_signerOf? {keys : List PrivateKey} {participant : PublicKey} {key : PrivateKey}
    (hmem : key ∈ keys) (hkey : key.publicKey = .ok participant) :
    ∃ key', signerOf? keys participant = some key' := by
  refine Option.isSome_iff_exists.1 (List.find?_isSome.2 ⟨key, hmem, ?_⟩)
  rw [hkey]
  exact beq_self_eq_true _

/-- **The signature of a participant** is the same whichever of the equal keys is asked. -/
theorem signatureOf?_eq_some_iff {keys : List PrivateKey} {digest : Digest}
    {participant : PublicKey} {sig : Signature} : signatureOf? keys digest participant = some sig ↔
      ∃ key ∈ keys, key.publicKey = .ok participant ∧ Signature.sign key digest = .ok sig := by
  rw [signatureOf?, Option.bind_eq_bind, Option.bind_eq_some_iff]
  constructor
  · rintro ⟨key, hsigner, hsign⟩
    obtain ⟨hmem, hkey⟩ := mem_of_signerOf? hsigner
    exact ⟨key, hmem, hkey, toOption_eq_some_iff.1 hsign⟩
  · rintro ⟨key, hmem, hkey, hsign⟩
    obtain ⟨key', hsigner⟩ := exists_signerOf? hmem hkey
    -- another key may be found, but it has the same scalar and so signs in the same way
    have hscalar := PrivateKey.scalar_eq_of_publicKey_eq (mem_of_signerOf? hsigner).2 hkey
    refine ⟨key', hsigner, toOption_eq_some_iff.2 ?_⟩
    rw [sign_congr hscalar, hsign]

section Found

variable {script : RedeemScript} {digest : Digest} {keys : List PrivateKey}

theorem getElem?_found (j : Nat) :
    (found script digest keys)[j]? = script.keys[j]?.map (signatureOf? keys digest) :=
  List.getElem?_map

/-- **One more signer** is a signature in its place, whether or not it was there before. -/
theorem found_concat {key : PrivateKey} {p : Nat} {sig : Signature}
    (hkey : Participates script digest key p sig) :
    found script digest (keys ++ [key]) = (found script digest keys).set p (some sig) := by
  obtain ⟨participant, hpublic, hp⟩ := hkey.place
  refine List.ext_getElem? fun i => ?_
  have hlen : p < (found script digest keys).length := by
    rw [found, List.length_map]
    exact (List.getElem?_eq_some_iff.1 hp).1
  rcases eq_or_ne p i with rfl | hi
  · have hsig : signatureOf? (keys ++ [key]) digest participant = some sig :=
      signatureOf?_eq_some_iff.2 ⟨key, by simp, hpublic, hkey.sign⟩
    rw [List.getElem?_set_self hlen, getElem?_found, hp, Option.map_some, hsig]
  · rw [List.getElem?_set_ne hi, getElem?_found, getElem?_found]
    cases hother : script.keys[i]? with
    | none => rfl
    | some other =>
      refine congrArg some (Option.ext fun s => ?_)
      rw [signatureOf?_eq_some_iff, signatureOf?_eq_some_iff]
      constructor
      · rintro ⟨key', hmem, hpublic', hsign⟩
        rcases List.mem_append.1 hmem with hmem | hmem
        · exact ⟨key', hmem, hpublic', hsign⟩
        · -- the new signer has another place than this one
          obtain rfl := List.mem_singleton.1 hmem
          obtain rfl := Except.ok.inj (hpublic.symm.trans hpublic')
          exact absurd (RedeemScript.place_unique hp hother) hi
      · rintro ⟨key', hmem, h⟩
        exact ⟨key', List.mem_append_left _ hmem, h⟩

/-- The signatures of participants are accepted in their places and nowhere else. -/
theorem accepts_of_found (h : Able script digest keys) {j : Nat}
    {sig : Signature} (hj : (found script digest keys)[j]? = some (some sig)) (i : Nat)
    {other : PublicKey} (hi : script.keys[i]? = some other) :
    Signature.accepts other digest sig = true ↔ i = j := by
  rw [getElem?_found, Option.map_eq_some_iff] at hj
  obtain ⟨participant, hplace, hsig⟩ := hj
  obtain ⟨key, hmem, hpublic, hsign⟩ := signatureOf?_eq_some_iff.1 hsig
  obtain ⟨p, sig', hkey⟩ := h key hmem
  obtain ⟨participant', hpublic', hp⟩ := hkey.place
  obtain rfl := Except.ok.inj (hpublic.symm.trans hpublic')
  obtain rfl := Except.ok.inj (hsign.symm.trans hkey.sign)
  rw [hkey.accepts i other hi, RedeemScript.place_unique hp hplace]

theorem found_nil : found script digest [] = script.keys.map fun _ => none :=
  rfl

theorem inPlace_found (h : Able script digest keys) :
    InPlace (Signature.accepts · digest) (found script digest keys) script.keys := by
  rw [inPlace_iff, found, List.length_map]
  exact ⟨rfl, fun j participant sig hplace hj => (accepts_of_found h hj j hplace).2 rfl⟩

/-- **The signatures that the witness keeps are found again**, each in its own place. -/
theorem collect_found (h : Able script digest keys) :
    collect (ofSlots script (found script digest keys)) script digest =
      .ok (keep script.threshold (found script digest keys)) := by
  rw [collect_ofSlots, ← reduceOption_keep, fill_reduceOption ((inPlace_found h).keep _)]
  intro i j other sig hij hi hj
  rw [← Bool.not_eq_true, accepts_of_found h (getElem?_of_keep hj) i hi]
  exact hij.ne

end Found

/-! ### Runs -/

/-- The transaction when the given keys have signed. -/
def stage (start : Transaction) (index : Nat) (script : RedeemScript) (digest : Digest) :
    List PrivateKey → Transaction
  | [] => start
  | keys => start.setWitness index (ofSlots script (found script digest keys))

section Run

variable {start : Transaction} {index : Nat} {coin : Coin} {input : TxInput} {script : RedeemScript}
  {digest : Digest} {keys : List PrivateKey}

theorem setWitness_stage (witness : Witness) :
    (stage start index script digest keys).setWitness index witness =
      start.setWitness index witness := by
  cases keys with
  | nil => rfl
  | cons key keys => exact Transaction.setWitness_setWitness witness

theorem coinDigest_stage :
    (stage start index script digest keys).coinDigest index coin = start.coinDigest index coin := by
  cases keys with
  | nil => rfl
  | cons key keys => exact Transaction.coinDigest_setWitness index coin

/-- **What every stage of a session has in common**: the input spends the coin, and the first
signatures of those that have signed are found in it. -/
theorem exists_spends_stage (hs : start.Spends index coin input) (hempty : input.witness = [])
    (h : Able script digest keys) :
    ∃ input', (stage start index script digest keys).Spends index coin input' ∧
      collect input'.witness script digest =
        .ok (keep script.threshold (found script digest keys)) := by
  cases keys with
  | nil =>
    refine ⟨input, hs, ?_⟩
    -- nobody has signed: there is no signature in any place
    have hnone : (script.keys.map fun _ => none) = (found script digest []) := rfl
    rw [hempty, collect, if_pos rfl, hnone]
    refine congrArg Except.ok (List.ext_getElem? fun j => ?_)
    rw [getElem?_keep]
    cases hj : (found script digest [])[j]? with
    | none => rfl
    | some slot =>
      rw [found_nil, List.getElem?_map, Option.map_eq_some_iff] at hj
      obtain ⟨_, -, rfl⟩ := hj
      exact congrArg some (ite_self none).symm
  | cons key keys => exact ⟨_, hs.setWitness _, collect_found h⟩

/-- **A step of signing** leads to the next stage. -/
theorem spendInput_stage (hs : start.Spends index coin input) (hempty : input.witness = [])
    (hcond : coin.condition = .multisig script) (hd : start.coinDigest index coin = .ok digest)
    (h : Able script digest keys) {key : PrivateKey} {p : Nat}
    {sig : Signature} (hkey : Participates script digest key p sig) :
    (stage start index script digest keys).spendInput index coin key =
      .ok (stage start index script digest (keys ++ [key])) := by
  obtain ⟨participant, hpublic, hp⟩ := hkey.place
  obtain ⟨input', hs', hcollect⟩ := exists_spends_stage hs hempty h
  have hd' : (stage start index script digest keys).coinDigest index coin = .ok digest :=
    coinDigest_stage.trans hd
  refine (Transaction.spendInput_eq_ok_iff hcond hpublic hp hd' hkey.sign).2
    ⟨input', _, hs', hcollect, ?_⟩
  -- what was dropped before would not be among the first ones now either
  rw [setWitness_stage, ofSlots_congr (take_reduceOption_set_keep _ _ _ _), ← found_concat hkey]
  cases keys <;> rfl

/-- **Writing and reading again** changes nothing. -/
theorem decode_encode_stage (hs : start.Spends index coin input) (hc : start.Countable) :
    Transaction.decode (stage start index script digest keys).encode =
      .ok (stage start index script digest keys) := by
  refine Transaction.decode_eq_ok_iff.2 ⟨⟨?_, ?_⟩, rfl⟩
  · cases keys with
    | nil => exact hc
    | cons key keys =>
      obtain ⟨hw, hitems⟩ := length_ofSlots_le script (found script digest (key :: keys))
      exact hc.setWitness (hw.trans_lt (by decide))
        (fun bs hbs => (hitems bs hbs).trans_lt (by decide)) index
  · -- there is an input, so nothing looks like a marker
    rintro ⟨hnil, -⟩
    cases keys with
    | nil => exact hs.inputs_ne_nil hnil
    | cons key keys => exact (hs.setWitness _).inputs_ne_nil hnil

/-- **A whole session** leads from one stage to another. -/
theorem run_stage (hs : start.Spends index coin input) (hempty : input.witness = [])
    (hcond : coin.condition = .multisig script) (hd : start.coinDigest index coin = .ok digest)
    (hc : start.Countable) {steps : List Step}
    (h : Able script digest (keys ++ signers steps)) :
    run index coin steps (stage start index script digest keys) =
      .ok (stage start index script digest (keys ++ signers steps)) := by
  induction steps generalizing keys with
  | nil =>
    rw [signers, List.filterMap_nil, List.append_nil]
    rfl
  | cons step steps ih =>
    refine Error.bind_eq_ok.2 ?_
    cases step with
    | sign key =>
      -- the signer joins those that have signed before the rest of the session
      have hsplit : keys ++ signers (.sign key :: steps) = keys ++ [key] ++ signers steps := by
        simp [signers]
      rw [hsplit] at h ⊢
      obtain ⟨p, sig, hkey⟩ := h key (by simp)
      have hold : Able script digest keys :=
        fun key hmem => h key (by simp [hmem])
      exact ⟨_, spendInput_stage hs hempty hcond hd hold hkey, ih h⟩
    | reread =>
      have hsame : signers (.reread :: steps) = signers steps := rfl
      rw [hsame] at h ⊢
      exact ⟨_, decode_encode_stage hs hc, ih h⟩

end Run

/-! ### The outcome -/

/-- **Which places are among the smallest ones** of a choice: those with few others below them. -/
theorem mem_take_filter_range (q : Nat → Bool) (n m j : Nat) :
    j ∈ ((List.range n).filter q).take m ↔
      (j < n ∧ q j = true) ∧ ((List.range j).filter q).length < m := by
  induction n with
  | zero => simp
  | succ n ih =>
    -- the last place comes behind all smaller ones that were chosen
    have hlast : j ∈ ([n].filter q).take (m - ((List.range n).filter q).length) ↔
        (j = n ∧ q j = true) ∧ ((List.range j).filter q).length < m := by
      by_cases hq : q n = true
      · rw [List.filter_cons_of_pos hq, List.filter_nil]
        rcases Nat.lt_or_ge ((List.range n).filter q).length m with hm | hm
        · obtain ⟨k, hk⟩ := Nat.exists_eq_add_of_lt hm
          have hsub : m - ((List.range n).filter q).length = k + 1 := by omega
          rw [hsub, List.take_succ_cons, List.take_nil, List.mem_singleton]
          exact ⟨by rintro rfl; exact ⟨⟨rfl, hq⟩, hm⟩, fun h => h.1.1⟩
        · rw [Nat.sub_eq_zero_of_le hm, List.take_zero]
          exact ⟨(nomatch ·), by rintro ⟨⟨rfl, -⟩, hlt⟩; exact absurd hlt hm.not_gt⟩
      · rw [List.filter_cons_of_neg hq, List.filter_nil, List.take_nil]
        exact ⟨(nomatch ·), by rintro ⟨⟨rfl, hqj⟩, -⟩; exact absurd hqj hq⟩
    rw [List.range_succ, List.filter_append, List.take_append, List.mem_append, ih, hlast,
      Nat.lt_succ_iff_lt_or_eq, or_and_right, or_and_right]

section Outcome

variable {script : RedeemScript} {digest : Digest} {keys : List PrivateKey}

/-- A participant has a signature exactly if there is a signer for it. -/
theorem isSome_signatureOf? (h : Able script digest keys)
    (participant : PublicKey) :
    (signatureOf? keys digest participant).isSome = (signerOf? keys participant).isSome := by
  cases hsigner : signerOf? keys participant with
  | none => rw [signatureOf?, hsigner]; rfl
  | some key =>
    obtain ⟨p, sig, hkey⟩ := h key (mem_of_signerOf? hsigner).1
    have hsig := signatureOf?_eq_some_iff.2
      ⟨key, (mem_of_signerOf? hsigner).1, (mem_of_signerOf? hsigner).2, hkey.sign⟩
    rw [hsig]
    rfl

/-- The signatures in front of a place are those of the participants in smaller places. -/
theorem length_reduceOption_take_found
    (h : Able script digest keys) {j : Nat}
    (hj : j ≤ script.keys.length) : ((found script digest keys).take j).reduceOption.length =
      ((List.range j).filter fun i => (script.keys[i]?.bind (signerOf? keys)).isSome).length := by
  induction j with
  | zero => rfl
  | succ j ih =>
    have hplace : script.keys[j]? = some script.keys[j] := List.getElem?_eq_getElem hj
    rw [List.take_add_one, List.reduceOption_append, List.length_append, ih (Nat.le_of_succ_le hj),
      List.range_succ, List.filter_append, List.length_append, getElem?_found, hplace]
    refine congrArg _ ?_
    have hsome := isSome_signatureOf? h script.keys[j]
    cases hsig : signatureOf? keys digest script.keys[j] with
    | none =>
      rw [hsig] at hsome
      simp [hplace, hsig, ← hsome, List.reduceOption_cons_of_none]
    | some sig =>
      rw [hsig] at hsome
      simp [hplace, hsig, ← hsome, List.reduceOption_cons_of_some]

/-- **The outcome** are the first of all signatures. -/
theorem outcome_eq_keep (h : Able script digest keys) :
    outcome script digest keys = keep script.threshold (found script digest keys) := by
  refine List.ext_getElem? fun j => ?_
  rw [outcome, List.getElem?_map, getElem?_keep, getElem?_found]
  rcases Nat.lt_or_ge j script.keys.length with hj | hj
  · have hplace : script.keys[j]? = some script.keys[j] := List.getElem?_eq_getElem hj
    have hsome := isSome_signatureOf? h script.keys[j]
    rw [List.getElem?_range hj, length_reduceOption_take_found h hj.le, hplace]
    simp only [Option.map_some, places, mem_take_filter_range, hplace, Option.bind_some, hj,
      true_and, ← hsome]
    cases signatureOf? keys digest script.keys[j] with
    | none => simp
    | some sig => simp
  · rw [List.getElem?_eq_none (by simpa using hj), List.getElem?_eq_none hj]
    rfl

theorem ofSlots_outcome (h : Able script digest keys) :
    ofSlots script (outcome script digest keys) = ofSlots script (found script digest keys) := by
  refine ofSlots_congr ?_
  rw [outcome_eq_keep h, reduceOption_keep, List.take_take, Nat.min_self]

theorem length_reduceOption_found
    (h : Able script digest keys) :
    (found script digest keys).reduceOption.length = (places script keys).length := by
  have hlen : (found script digest keys).length = script.keys.length := List.length_map _
  have htake := length_reduceOption_take_found h (Nat.le_refl _)
  rwa [← hlen, List.take_length, hlen] at htake

end Outcome

/-- A private key with the public key of a participant is a participant. -/
theorem Participates.of_publicKey_eq {script : RedeemScript} {digest : Digest}
    {key key' : PrivateKey} {p : Nat} {sig : Signature} (h : Participates script digest key p sig)
    (he : key'.publicKey = key.publicKey) : Participates script digest key' p sig := by
  obtain ⟨participant, hpublic, hp⟩ := h.place
  have hscalar := PrivateKey.scalar_eq_of_publicKey_eq (he.trans hpublic) hpublic
  exact ⟨⟨participant, he.trans hpublic, hp⟩, (sign_congr hscalar digest).trans h.sign, h.accepts⟩

/-- The signatures depend on the public keys of the signers only. -/
theorem found_congr {script : RedeemScript} {digest : Digest} {keys keys' : List PrivateKey}
    (h : ∀ result,
      result ∈ keys'.map PrivateKey.publicKey ↔ result ∈ keys.map PrivateKey.publicKey) :
    found script digest keys' = found script digest keys := by
  have hsub : ∀ {keys keys' : List PrivateKey} {participant : PublicKey} {sig : Signature},
      (∀ result, result ∈ keys.map PrivateKey.publicKey → result ∈ keys'.map PrivateKey.publicKey) →
      signatureOf? keys digest participant = some sig →
        signatureOf? keys' digest participant = some sig := by
    intro keys keys' participant sig hkeys hsig
    obtain ⟨key, hmem, hpublic, hsign⟩ := signatureOf?_eq_some_iff.1 hsig
    obtain ⟨key', hmem', hpublic'⟩ := List.mem_map.1 (hkeys _ (List.mem_map_of_mem hmem))
    have hscalar := PrivateKey.scalar_eq_of_publicKey_eq (hpublic'.trans hpublic) hpublic
    exact signatureOf?_eq_some_iff.2
      ⟨key', hmem', hpublic'.trans hpublic, (sign_congr hscalar digest).trans hsign⟩
  refine List.map_congr_left fun participant _ => Option.ext fun sig => ?_
  exact ⟨hsub fun result => (h result).1, hsub fun result => (h result).2⟩

/-- **What a signing session leads to**, from an input that has no witness yet. Every step succeeds;
the witness is the one that is put together from the signatures of the participants in the smallest
places, as many as the threshold asks for; the input is complete exactly if at least as many
participants have signed; and any other session with the same signers, in whatever order and however
often they sign, leads to the same transaction. -/
theorem run_eq_assemble {start : Transaction} {index : Nat} {coin : Coin} {input : TxInput}
    {script : RedeemScript} {digest : Digest} {steps : List Step}
    (hs : start.Spends index coin input) (hempty : input.witness = [])
    (hcond : coin.condition = .multisig script) (hc : start.Countable)
    (hd : start.coinDigest index coin = .ok digest) (hne : signers steps ≠ [])
    (h : ∀ key ∈ signers steps, ∃ p sig, Participates script digest key p sig) :
    (∃ witness, assemble script (outcome script digest (signers steps)) = .ok witness ∧
        run index coin steps start = .ok (start.setWitness index witness) ∧
        (start.setWitness index witness).verifyInput index coin =
          .ok (decide (script.threshold ≤ (places script (signers steps)).length))) ∧
      ∀ steps' : List Step,
        (∀ result, result ∈ (signers steps').map PrivateKey.publicKey ↔
          result ∈ (signers steps).map PrivateKey.publicKey) →
        run index coin steps' start = run index coin steps start := by
  have hrun : ∀ {steps : List Step}, signers steps ≠ [] →
      Able script digest (signers steps) →
      run index coin steps start =
        .ok (start.setWitness index (ofSlots script (found script digest (signers steps)))) := by
    intro steps hne h
    have hstage : run index coin steps (stage start index script digest []) =
        .ok (stage start index script digest ([] ++ signers steps)) :=
      run_stage hs hempty hcond hd hc h
    rw [List.nil_append] at hstage
    -- as somebody has signed, the last stage is not the start any more
    obtain ⟨key, keys, hkeys⟩ := List.exists_cons_of_ne_nil hne
    rw [hkeys] at hstage ⊢
    exact hstage
  refine ⟨⟨_, assemble_eq_ok_iff.2 ⟨?_, ofSlots_outcome h⟩, hrun hne h, ?_⟩, fun steps' hsame => ?_⟩
  · rw [outcome, List.length_map, List.length_range]
  · rw [Transaction.verifyInput_ofSlots hs hcond hd (inPlace_found h), length_reduceOption_found h]
  · have h' : Able script digest (signers steps') := by
      intro key' hmem'
      obtain ⟨key, hmem, he⟩ := List.mem_map.1 ((hsame _).1 (List.mem_map_of_mem hmem'))
      obtain ⟨p, sig, hkey⟩ := h key hmem
      exact ⟨p, sig, hkey.of_publicKey_eq he.symm⟩
    have hne' : signers steps' ≠ [] := by
      obtain ⟨key, hmem⟩ := List.exists_mem_of_ne_nil _ hne
      intro hnil
      have hresult := (hsame _).2 (List.mem_map_of_mem hmem)
      rw [hnil] at hresult
      cases hresult
    rw [hrun hne' h', hrun hne h, found_congr hsame]

/-- One of two participants signs twice, and the transaction is written and read again in between.
-/
theorem run_eq_assemble_repeated :
    ∃ witness, assemble Sample.script
          (outcome Sample.script Sample.digest [Sample.key, Sample.key]) = .ok witness ∧
      run 0 Sample.coin [.sign Sample.key, .reread, .sign Sample.key] (Sample.spending []) =
          .ok ((Sample.spending []).setWitness 0 witness) ∧
      ((Sample.spending []).setWitness 0 witness).verifyInput 0 Sample.coin = .ok true := by
  have hkey : Participates Sample.script Sample.digest Sample.key 0 Sample.sig := by
    refine ⟨⟨_, Sample.publicKey_key, Sample.place_first⟩, Sample.sign_key, fun i other hi => ?_⟩
    match i, hi with
    | 0, rfl => exact iff_of_true Sample.accepts_first rfl
    | 1, rfl => exact iff_of_false (by rw [Sample.accepts_second]; decide) (by decide)
  have hc : (Sample.spending []).Countable := by
    refine ⟨by decide, by decide, fun input hin => ?_, fun output hout => nomatch hout⟩
    obtain rfl := List.mem_singleton.1 hin
    exact ⟨by decide, by decide, fun _ hbs => nomatch hbs⟩
  have hplaces : places Sample.script [Sample.key, Sample.key] = [0] := by decide +kernel
  have hsigners : signers [.sign Sample.key, .reread, .sign Sample.key] =
      [Sample.key, Sample.key] := rfl
  have h : ∀ key ∈ signers [.sign Sample.key, .reread, .sign Sample.key],
      ∃ p sig, Participates Sample.script Sample.digest key p sig := by
    rw [hsigners]
    intro key hmem
    obtain rfl : key = Sample.key := by simpa using hmem
    exact ⟨0, Sample.sig, hkey⟩
  obtain ⟨⟨witness, hw, hrun, hverify⟩, -⟩ :=
    run_eq_assemble (Sample.spends_spending []) rfl rfl hc (Sample.coinDigest_spending [])
      (by rw [hsigners]; exact List.cons_ne_nil _ _) h
  rw [hsigners, hplaces] at hverify
  exact ⟨witness, hw, hrun, hverify⟩

end Session

end WitnessSigning
