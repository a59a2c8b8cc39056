import WitnessSigning.Proofs.Spend.Signing

/-!
# Finding signatures among other items

A witness that ends with the script may hold anything in front of it. What is found there is
signed: each entry comes from an item between the first and the last one, which the key of the
entry accepts, and the entries come from their items in order
(`WitnessSigning.Matching.exists_places`). So no item serves two keys.

That all signatures are found takes more, since a signature is given to the first key that it
fits and the keys in front of that one are passed. It holds where the signatures are in the
order of their keys and none of them fits two (`WitnessSigning.Matching.InOrder`): then the key
that a signature fits has not been passed when its turn comes
(`WitnessSigning.Matching.getElem?_fill`). Items that are no signature, or one of no key, pass
no key, so any number of them may stand anywhere.
-/

namespace WitnessSigning

namespace Matching

variable {κ σ : Type} {fits : κ → σ → Bool}

/-! ### Where entries come from -/

section Places

variable {slots : List (Option σ)} {i j : Nat} {s : σ}

/-- A signature comes behind those of the entries in front of it. -/
theorem getElem?_reduceOption (h : slots[j]? = some (some s)) :
    slots.reduceOption[(slots.take j).reduceOption.length]? = some s := by
  obtain ⟨hlt, hj⟩ := List.getElem?_eq_some_iff.1 h
  have hsplit : slots.reduceOption =
      (slots.take j).reduceOption ++ s :: (slots.drop (j + 1)).reduceOption := by
    rw [← List.reduceOption_cons_of_some, ← List.reduceOption_append, ← hj,
      ← List.drop_eq_getElem_cons hlt, List.take_append_drop]
  rw [hsplit, List.getElem?_append_right (Nat.le_refl _), Nat.sub_self]
  rfl

theorem length_reduceOption_take_lt (hij : i < j) (h : slots[i]? = some (some s)) :
    (slots.take i).reduceOption.length < (slots.take j).reduceOption.length := by
  have htake : slots.take (i + 1) = slots.take i ++ [some s] := by
    rw [List.take_add_one, h]
    rfl
  have hsub : (slots.take (i + 1)).reduceOption.Sublist (slots.take j).reduceOption :=
    (List.take_sublist_take_left hij).filterMap _
  have hle := hsub.length_le
  rw [htake, List.reduceOption_append, List.length_append] at hle
  exact hle

/-- **Signatures that stand in a list in their order** have places there, which
increase with those of their entries. -/
theorem exists_places {α : Type} {xs : List α} {g : σ → α}
    (h : (slots.reduceOption.map g).Sublist xs) : ∃ place : Nat → Nat,
      (∀ j s, slots[j]? = some (some s) → xs[place j]? = some (g s)) ∧
        ∀ i j s, i < j → slots[i]? = some (some s) → place i < place j := by
  obtain ⟨f, hf⟩ := List.sublist_iff_exists_orderEmbedding_getElem?_eq.1 h
  refine ⟨fun j => f (slots.take j).reduceOption.length, fun j s hj => ?_, fun i j s hij hi => ?_⟩
  · rw [← hf, List.getElem?_map, getElem?_reduceOption hj]
    rfl
  · exact f.strictMono (length_reduceOption_take_lt hij hi)

end Places

/-! ### Signatures in the order of their keys -/

section InOrder

variable {ss : List σ} {ks : List κ} {s : σ} {k : κ} {j : Nat}

/-- A signature fits the key at a place. -/
def FitsAt (fits : κ → σ → Bool) (ks : List κ) (s : σ) (j : Nat) : Prop :=
  ∃ k, ks[j]? = some k ∧ fits k s = true

theorem exists_fitsAt_iff : (∃ j, FitsAt fits ks s j) ↔ ks.any (fits · s) = true := by
  rw [List.any_eq_true]
  constructor
  · rintro ⟨j, k, hk, hfits⟩
    exact ⟨k, List.mem_of_getElem? hk, hfits⟩
  · rintro ⟨k, hk, hfits⟩
    obtain ⟨j, hj⟩ := List.mem_iff_getElem?.1 hk
    exact ⟨j, k, hj, hfits⟩

theorem fitsAt_zero_iff : FitsAt fits (k :: ks) s 0 ↔ fits k s = true := by
  simp [FitsAt]

theorem InPlace.fitsAt {slots : List (Option σ)} (h : InPlace fits slots ks)
    (hj : slots[j]? = some (some s)) : FitsAt fits ks s j := by
  obtain ⟨hlength, hfits⟩ := inPlace_iff.1 h
  have hlt : j < ks.length := hlength ▸ (List.getElem?_eq_some_iff.1 hj).1
  exact ⟨ks[j], List.getElem?_eq_getElem hlt, hfits j _ s (List.getElem?_eq_getElem hlt) hj⟩

/-- **Signatures in the order of their keys**: each of them fits one key at most, and later ones fit
later keys only. -/
structure InOrder (fits : κ → σ → Bool) (ss : List σ) (ks : List κ) : Prop where
  one : ∀ s ∈ ss, ∀ i j, FitsAt fits ks s i → FitsAt fits ks s j → i = j
  later : ss.Pairwise fun s t => ∀ i j, FitsAt fits ks s i → FitsAt fits ks t j → i < j

theorem InOrder.lt (h : InOrder fits (s :: ss) ks) {t : σ} (ht : t ∈ ss) {i : Nat}
    (hi : FitsAt fits ks s i) (hj : FitsAt fits ks t j) : i < j :=
  (List.pairwise_cons.1 h.later).1 t ht i j hi hj

theorem InOrder.of_cons (h : InOrder fits (s :: ss) ks) : InOrder fits ss ks where
  one := (List.forall_mem_cons.1 h.one).2
  later := (List.pairwise_cons.1 h.later).2

/-- Without the first key the others are still in order. -/
theorem InOrder.tail (h : InOrder fits ss (k :: ks)) : InOrder fits ss ks where
  one s hs i j hi hj := Nat.succ.inj (h.one s hs (i + 1) (j + 1) hi hj)
  later := h.later.imp fun h i j hi hj => Nat.lt_of_succ_lt_succ (h (i + 1) (j + 1) hi hj)

/-- **A signature takes the key that it fits** if all are in the order of their keys. Those that
fit no key may stand anywhere among them. -/
theorem getElem?_fill (h : InOrder fits ss ks) (hs : s ∈ ss) (hj : FitsAt fits ks s j) :
    (fill fits ss ks)[j]? = some (some s) := by
  induction ss generalizing ks j with
  | nil => cases hs
  | cons t ss ih =>
    induction ks generalizing j with
    | nil => obtain ⟨k, ⟨⟩, -⟩ := hj
    | cons k ks ihk =>
      rw [fill_cons_cons]
      split
      · -- the first signature takes the first key, and the others fit later ones only
        next hfits =>
        have ht : FitsAt fits (k :: ks) t 0 := fitsAt_zero_iff.2 hfits
        rcases List.mem_cons.1 hs with rfl | hmem
        · rw [h.one s List.mem_cons_self j 0 hj ht]
          rfl
        · match j, hj, h.lt hmem ht hj with
          | j + 1, hj, _ => exact ih h.of_cons.tail hmem hj
      · next hfits =>
        split
        · -- the first signature fits a later key, so that no signature fits the first one
          next hany =>
          obtain ⟨i, hi⟩ := exists_fitsAt_iff.2 hany
          match j, hj with
          | 0, hj =>
            rcases List.mem_cons.1 hs with rfl | hmem
            · exact absurd (fitsAt_zero_iff.1 hj) hfits
            · exact absurd (h.lt (i := i + 1) hmem hi hj) (Nat.not_lt_zero _)
          | j + 1, hj => exact ihk h.tail hj
        · next hany =>
          rcases List.mem_cons.1 hs with rfl | hmem
          · -- a signature that fits some key is not left out
            have hsome := exists_fitsAt_iff.1 ⟨j, hj⟩
            rw [List.any_cons, Bool.or_eq_true] at hsome
            exact absurd hsome (not_or.2 ⟨hfits, hany⟩)
          · exact ih h.of_cons hmem hj

end InOrder

end Matching

namespace Witness

open Matching

variable {witness : Witness} {script : RedeemScript} {digest : Digest}

/-! ### Signed items -/

theorem getElem?_inner {i : Nat} {item : Bytes} :
    (inner witness)[i]? = some item ↔ i + 1 + 1 < witness.length ∧ witness[i + 1]? = some item := by
  rw [inner, List.getElem?_dropLast, List.length_tail, List.getElem?_tail,
    Option.ite_none_right_eq_some]
  refine and_congr_left fun _ => ?_
  omega

/-- **The item at a place is signed by the key at a place**: it stands between the first item and
the last one, is read as the signature, and the key accepts this. -/
structure SignedAt (witness : Witness) (script : RedeemScript) (digest : Digest) (p j : Nat)
    (sig : Signature) : Prop where
  between : 0 < p ∧ p + 1 < witness.length
  item : ∃ item, witness[p]? = some item ∧ Signature.ofItem? item = some sig
  key : ∃ key, script.keys[j]? = some key ∧ Signature.accepts key digest sig = true

theorem signedAt_succ_iff {i j : Nat} {sig : Signature} :
    SignedAt witness script digest (i + 1) j sig ↔
      (∃ item, (inner witness)[i]? = some item ∧ Signature.ofItem? item = some sig) ∧
        FitsAt (Signature.accepts · digest) script.keys sig j := by
  simp only [getElem?_inner]
  constructor
  · rintro ⟨⟨-, hlt⟩, ⟨item, hitem, hsig⟩, hkey⟩
    exact ⟨⟨item, ⟨hlt, hitem⟩, hsig⟩, hkey⟩
  · rintro ⟨⟨item, ⟨hlt, hitem⟩, hsig⟩, hkey⟩
    exact ⟨⟨Nat.succ_pos i, hlt⟩, ⟨item, hitem, hsig⟩, hkey⟩

/-- Items that are signed in the order of their keys hold signatures in this order. -/
theorem inOrder_of_signedAt
    (hone : ∀ p i j sig, SignedAt witness script digest p i sig →
      SignedAt witness script digest p j sig → i = j)
    (hlater : ∀ p q i j sig sig', p < q → SignedAt witness script digest p i sig →
      SignedAt witness script digest q j sig' → i < j) :
    InOrder (Signature.accepts · digest) ((inner witness).filterMap Signature.ofItem?)
      script.keys where
  one sig hsig i j hi hj := by
    obtain ⟨item, hitem, hread⟩ := List.mem_filterMap.1 hsig
    obtain ⟨p, hp⟩ := List.mem_iff_getElem?.1 hitem
    exact hone (p + 1) i j sig (signedAt_succ_iff.2 ⟨⟨item, hp, hread⟩, hi⟩)
      (signedAt_succ_iff.2 ⟨⟨item, hp, hread⟩, hj⟩)
  later := by
    rw [List.pairwise_filterMap, List.pairwise_iff_getElem]
    intro p q hp hq hpq sig hsig sig' hsig' i j hi hj
    exact hlater (p + 1) (q + 1) i j sig sig' (Nat.succ_lt_succ hpq)
      (signedAt_succ_iff.2 ⟨⟨_, List.getElem?_eq_getElem hp, hsig⟩, hi⟩)
      (signedAt_succ_iff.2 ⟨⟨_, List.getElem?_eq_getElem hq, hsig'⟩, hj⟩)

/-! ### What is found -/

/-- **Whatever is found is signed, and what is signed in order is found.** There is an entry for
each key. One that is filled comes from an item between the first and the last one that is signed
by its key, and entries of later keys come from later items. If moreover no item is signed by two
keys, and later items are signed by later keys, then an entry holds a signature exactly if some
item is signed with it by the key, whatever other items there are. -/
theorem collect_sound_complete (digest : Digest) (hlength : 2 ≤ witness.length)
    (hlast : witness.getLast? = some script.bytes) :
    ∃ slots, collect witness script digest = .ok slots ∧ slots.length = script.keys.length ∧
      (∃ place : Nat → Nat,
        (∀ j sig, slots[j]? = some (some sig) → SignedAt witness script digest (place j) j sig) ∧
          ∀ i j sig sig', i < j → slots[i]? = some (some sig) → slots[j]? = some (some sig') →
            place i < place j) ∧
      ((∀ p i j sig, SignedAt witness script digest p i sig →
          SignedAt witness script digest p j sig → i = j) →
        (∀ p q i j sig sig', p < q → SignedAt witness script digest p i sig →
          SignedAt witness script digest q j sig' → i < j) →
        ∀ j sig, slots[j]? = some (some sig) ↔ ∃ p, SignedAt witness script digest p j sig) := by
  have hcollect := collect_of_endsWith digest (endsWith_iff.2 ⟨hlength, hlast⟩)
  obtain ⟨place, hplace, hmono⟩ := exists_places (map_toItem_collect_sublist hcollect)
  have hsigned : ∀ j sig, _ → SignedAt witness script digest (place j + 1) j sig := fun j sig hj =>
    signedAt_succ_iff.2 ⟨⟨_, hplace j sig hj, Signature.ofItem?_toItem sig⟩,
      (inPlace_collect hcollect).fitsAt hj⟩
  refine ⟨_, hcollect, length_fill _ _ _, ⟨(place · + 1), hsigned, ?_⟩, ?_⟩
  · exact fun i j sig _ hij hi _ => Nat.succ_lt_succ (hmono i j sig hij hi)
  · refine fun hone hlater j sig => ⟨fun hj => ⟨_, hsigned j sig hj⟩, ?_⟩
    rintro ⟨p, h⟩
    match p, h, h.between.1 with
    | p + 1, h, _ =>
      obtain ⟨⟨item, hitem, hread⟩, hj⟩ := signedAt_succ_iff.1 h
      exact getElem?_fill (inOrder_of_signedAt hone hlater)
        (List.mem_filterMap.2 ⟨item, List.mem_of_getElem? hitem, hread⟩) hj

end Witness

namespace Sample

/-- The other form of the first key's signature, which is not low. -/
def highSig : Signature where
  r := sig.r
  s := 0xf4fc6c247d7cf6825cf4d3be5cf4dc701e8ce289403e4aa01318c2513b72d0e2

/-- A signature of the second key. -/
def secondSig : Signature where
  r := 0xf9308a019258c31049344f85f89d5229b531c845836f99b08601f113bce036f9
  s := 0x373c2cbb0a2e19fa33d7a661b18c3f2103b00d64c1cb07bad852c092af063011

theorem accepts_secondSig : Signature.accepts second digest secondSig = true ∧
    Signature.accepts first digest secondSig = false := by
  decide +kernel

/-- Signatures of both keys among octets that are no signature, an empty item
and a signature that is not low. -/
def mixed : Witness :=
  [[], [0xff], sig.toItem, [], highSig.toItem, secondSig.toItem, script.bytes]

/-- Two items are signed, each by its key. -/
theorem signedAt_mixed {p j : Nat} {found : Signature}
    (h : Witness.SignedAt mixed script digest p j found) : p = 2 ∧ j = 0 ∨ p = 5 ∧ j = 1 := by
  have hread : ∀ {made : Signature}, Signature.ofItem? made.toItem = some found → made = found :=
    fun h => Option.some.inj ((Signature.ofItem?_toItem _).symm.trans h)
  obtain ⟨⟨hp, hlt⟩, ⟨item, hitem, hsig⟩, key, hkey, haccepts⟩ := h
  change p + 1 < 7 at hlt
  have hkeys : j = 0 ∧ first = key ∨ j = 1 ∧ second = key :=
    match j, hkey with
    | 0, hkey => .inl ⟨rfl, Option.some.inj hkey⟩
    | 1, hkey => .inr ⟨rfl, Option.some.inj hkey⟩
  obtain rfl | rfl | rfl | rfl | rfl : p = 1 ∨ p = 2 ∨ p = 3 ∨ p = 4 ∨ p = 5 := by omega
  all_goals cases hitem
  · cases hsig
  · obtain rfl := hread hsig
    rcases hkeys with ⟨rfl, rfl⟩ | ⟨rfl, rfl⟩
    · exact .inl ⟨rfl, rfl⟩
    · cases accepts_second.symm.trans haccepts
  · cases hsig
  · obtain rfl := hread hsig
    have hhigh : highSig.isLow = false := by decide +kernel
    rw [Signature.accepts, hhigh] at haccepts
    cases haccepts
  · obtain rfl := hread hsig
    rcases hkeys with ⟨rfl, rfl⟩ | ⟨rfl, rfl⟩
    · cases accepts_secondSig.2.symm.trans haccepts
    · exact .inr ⟨rfl, rfl⟩

end Sample

namespace Witness

/-- The signatures of both keys are found among items that are signed by none. -/
theorem collect_sound_complete_mixed :
    (2 ≤ Sample.mixed.length ∧ Sample.mixed.getLast? = some Sample.script.bytes) ∧
      (∀ p j sig, SignedAt Sample.mixed Sample.script Sample.digest p j sig →
        p = 2 ∧ j = 0 ∨ p = 5 ∧ j = 1) ∧
      ∃ slots, collect Sample.mixed Sample.script Sample.digest = .ok slots ∧
        slots[0]? = some (some Sample.sig) ∧ slots[1]? = some (some Sample.secondSig) := by
  have hends : 2 ≤ Sample.mixed.length ∧ Sample.mixed.getLast? = some Sample.script.bytes :=
    ⟨by decide, rfl⟩
  obtain ⟨slots, hslots, -, -, hfound⟩ :=
    collect_sound_complete Sample.digest hends.1 hends.2
  have hentry := hfound ?_ ?_
  · refine ⟨hends, fun _ _ _ => Sample.signedAt_mixed, slots, hslots, (hentry 0 _).2 ⟨2, ?_⟩,
      (hentry 1 _).2 ⟨5, ?_⟩⟩
    · exact ⟨by decide, ⟨_, rfl, Signature.ofItem?_toItem _⟩, _, rfl, Sample.accepts_first⟩
    · exact ⟨by decide, ⟨_, rfl, Signature.ofItem?_toItem _⟩, _, rfl,
        Sample.accepts_secondSig.1⟩
  · intro p i j sig hi hj
    have hpi := Sample.signedAt_mixed hi
    have hpj := Sample.signedAt_mixed hj
    omega
  · intro p q i j sig sig' hpq hi hj
    have hpi := Sample.signedAt_mixed hi
    have hqj := Sample.signedAt_mixed hj
    omega

end Witness

end WitnessSigning
