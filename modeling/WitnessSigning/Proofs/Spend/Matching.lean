import Mathlib.Data.List.Forall2
import Mathlib.Data.List.NodupEquivFin
import Mathlib.Data.List.ReduceOption
import WitnessSigning.Spend.Witness

/-!
# Matching signatures to keys in one pass

Taking the first key that fits never costs a match: whenever signatures can be laid along the keys
in order at all, the single pass of `WitnessSigning.Matching.covers` finds a way to do so
(`WitnessSigning.Matching.covers_iff`). The reason is an exchange: a match that starts at a later
key can be moved to the first one that fits (`WitnessSigning.Matching.sublistForall₂_tails`). As
being laid along does not depend on the end one starts from, a scan from the last signature and the
last key has the same result, also if it gives up early (`WitnessSigning.Matching.scan_reverse`).

Signatures in the places of their keys are such a match (`WitnessSigning.Matching.InPlace`), and
`WitnessSigning.Matching.fill` puts them there.
-/

namespace WitnessSigning.Matching

variable {κ σ : Type} {fits : κ → σ → Bool}

/-! ### Lists laid along lists -/

section SublistForall₂

variable {α β : Type} {R : α → β → Prop}

/-- Fewer elements are laid along all the more. -/
theorem sublistForall₂_of_sublist {as as' : List α} {bs : List β} (hs : as'.Sublist as)
    (h : List.SublistForall₂ R as bs) : List.SublistForall₂ R as' bs := by
  induction h generalizing as' with
  | nil =>
    rw [List.sublist_nil.1 hs]
    exact .nil
  | cons hr _ ih =>
    cases hs with
    | cons _ hs => exact .cons_right (ih hs)
    | cons_cons _ hs => exact .cons hr (ih hs)
  | cons_right _ ih => exact .cons_right (ih hs)

/-- **The exchange**: whatever the first element was laid along, the others can do without the first
place. -/
theorem sublistForall₂_tails {a : α} {b : β} {as : List α} {bs : List β}
    (h : List.SublistForall₂ R (a :: as) (b :: bs)) : List.SublistForall₂ R as bs := by
  cases h with
  | cons _ h => exact h
  | cons_right h => exact sublistForall₂_of_sublist (List.sublist_cons_self a as) h

theorem sublistForall₂_length_le {as : List α} {bs : List β} (h : List.SublistForall₂ R as bs) :
    as.length ≤ bs.length := by
  obtain ⟨bs', hf, hs⟩ := List.sublistForall₂_iff.1 h
  exact hf.length_eq ▸ hs.length_le

/-- Being laid along does not depend on the end that one starts from. -/
theorem sublistForall₂_reverse_iff {as : List α} {bs : List β} :
    List.SublistForall₂ R as.reverse bs.reverse ↔ List.SublistForall₂ R as bs := by
  have key : ∀ {as : List α} {bs : List β}, List.SublistForall₂ R as bs →
      List.SublistForall₂ R as.reverse bs.reverse := by
    intro as bs h
    obtain ⟨bs', hf, hs⟩ := List.sublistForall₂_iff.1 h
    exact List.sublistForall₂_iff.2 ⟨bs'.reverse, List.rel_reverse hf, hs.reverse⟩
  refine ⟨fun h => ?_, key⟩
  simpa only [List.reverse_reverse] using key h

/-- **Laid along, in terms of places**: a strictly increasing choice of them. -/
theorem sublistForall₂_iff_strictMono {as : List α} {bs : List β} :
    List.SublistForall₂ R as bs ↔
      ∃ f : Fin as.length → Fin bs.length, StrictMono f ∧ ∀ i, R (as.get i) (bs.get (f i)) := by
  rw [List.sublistForall₂_iff]
  constructor
  · rintro ⟨bs', hf, hs⟩
    obtain ⟨g, hg⟩ := List.sublist_iff_exists_fin_orderEmbedding_get_eq.1 hs
    refine ⟨fun i => g (i.cast hf.length_eq), fun i j hij => g.strictMono hij, fun i => ?_⟩
    rw [← hg]
    exact (List.forall₂_iff_get.1 hf).2 i _ _
  · rintro ⟨f, hf, hr⟩
    refine ⟨List.ofFn fun i => bs.get (f i), List.forall₂_iff_get.2 ⟨by simp, ?_⟩, ?_⟩
    · intro i ha hb
      simpa using hr ⟨i, ha⟩
    · refine List.sublist_iff_exists_fin_orderEmbedding_get_eq.2
        ⟨OrderEmbedding.ofStrictMono (fun i => f (i.cast (List.length_ofFn))) ?_, fun i => ?_⟩
      · exact fun i j hij => hf hij
      · rw [List.get_ofFn]
        rfl

end SublistForall₂

/-! ### The pass from the first key -/

/-- **Every signature finds a key** in one pass exactly if the signatures can be laid along the
keys. -/
theorem covers_iff {ss : List σ} {ks : List κ} :
    covers fits ss ks = true ↔ List.SublistForall₂ (fun s k => fits k s = true) ss ks := by
  induction ks generalizing ss with
  | nil =>
    cases ss with
    | nil => exact ⟨fun _ => .nil, fun _ => rfl⟩
    | cons s ss => exact ⟨(nomatch ·), (nomatch ·)⟩
  | cons k ks ih =>
    cases ss with
    | nil => exact ⟨fun _ => .nil, fun _ => rfl⟩
    | cons s ss =>
      rw [covers]
      split
      · -- whatever key the signature had, the others can do without this one
        next hfits => exact ih.trans ⟨.cons hfits, sublistForall₂_tails⟩
      · next hfits =>
        refine ih.trans ⟨.cons_right, fun h => ?_⟩
        cases h with
        | cons h _ => exact absurd h hfits
        | cons_right h => exact h

/-! ### The pass from the last key -/

/-- **A scan that gives up**: the next key is tried with the next signature, and as soon as more
signatures are left than keys, the verdict is no. -/
def scan (fits : κ → σ → Bool) : List σ → List κ → Bool
  | [], _ => true
  | _ :: _, [] => false
  | s :: ss, k :: ks =>
    let left := if fits k s then ss else s :: ss
    left.length ≤ ks.length && scan fits left ks

/-- Giving up early does not change the verdict. -/
theorem scan_eq_covers (ss : List σ) (ks : List κ) : scan fits ss ks = covers fits ss ks := by
  induction ks generalizing ss with
  | nil => cases ss <;> rfl
  | cons k ks ih =>
    -- with more signatures than keys the rest would be refused anyway
    have early : ∀ left : List σ, (decide (left.length ≤ ks.length) && covers fits left ks) =
        covers fits left ks := by
      intro left
      cases hc : covers fits left ks with
      | false => exact Bool.and_false _
      | true => simpa using sublistForall₂_length_le (covers_iff.1 hc)
    cases ss with
    | nil => rfl
    | cons s ss =>
      simp only [scan, ih, early]
      rw [covers]
      split <;> rfl

/-- **The scan from the last signature and the last key** comes to the verdict of the pass from the
first ones. -/
theorem scan_reverse (ss : List σ) (ks : List κ) :
    scan fits ss.reverse ks.reverse = covers fits ss ks := by
  rw [scan_eq_covers, Bool.eq_iff_iff, covers_iff, covers_iff, sublistForall₂_reverse_iff]

/-! ### Signatures in place -/

/-- **Entries in place**: one for each key, and a signature only where it fits. -/
def InPlace (fits : κ → σ → Bool) : List (Option σ) → List κ → Prop :=
  List.Forall₂ fun slot k => ∀ s, slot = some s → fits k s = true

theorem inPlace_iff {slots : List (Option σ)} {ks : List κ} :
    InPlace fits slots ks ↔ slots.length = ks.length ∧ ∀ (j : Nat) (k : κ) (s : σ),
      ks[j]? = some k → slots[j]? = some (some s) → fits k s = true := by
  rw [InPlace, List.forall₂_iff_get]
  refine and_congr_right fun hl => ⟨fun h j k s hk hs => ?_, fun h j hs hk s hslot => ?_⟩
  · obtain ⟨hjk, rfl⟩ := List.getElem?_eq_some_iff.1 hk
    obtain ⟨hjs, hs⟩ := List.getElem?_eq_some_iff.1 hs
    exact h j hjs hjk s hs
  · exact h j _ s (List.getElem?_eq_getElem hk) (hslot ▸ List.getElem?_eq_getElem hs)

/-- Signatures in place can be laid along the keys. -/
theorem InPlace.sublistForall₂ {slots : List (Option σ)} {ks : List κ} (h : InPlace fits slots ks) :
    List.SublistForall₂ (fun s k => fits k s = true) slots.reduceOption ks := by
  induction h with
  | nil => exact .nil
  | @cons slot k slots ks hs _ ih =>
    cases slot with
    | none => exact .cons_right ih
    | some s => exact .cons (hs s rfl) ih

theorem inPlace_map_none (ks : List κ) : InPlace fits (ks.map fun _ => none) ks := by
  induction ks with
  | nil => exact .nil
  | cons k ks ih => exact .cons (fun _ h => nomatch h) ih

theorem reduceOption_map_none (ks : List κ) :
    (ks.map fun _ => (none : Option σ)).reduceOption = [] := by
  rw [List.map_const', List.reduceOption_replicate_none]

/-- An entry that fits its key may be added. -/
theorem InPlace.set {slots : List (Option σ)} {ks : List κ} {j : Nat} {k : κ} {slot : Option σ}
    (h : InPlace fits slots ks) (hk : ks[j]? = some k)
    (hs : ∀ s, slot = some s → fits k s = true) : InPlace fits (slots.set j slot) ks := by
  rw [inPlace_iff] at h ⊢
  refine ⟨by rw [List.length_set, h.1], fun i k' s hk' hi => ?_⟩
  rcases eq_or_ne j i with rfl | hij
  · obtain rfl := Option.some.inj (hk.symm.trans hk')
    obtain ⟨-, hi⟩ : j < slots.length ∧ slot = some s := by simpa [List.getElem?_set] using hi
    exact hs s hi
  · rw [List.getElem?_set_ne hij] at hi
    exact h.2 i k' s hk' hi

/-! ### Putting signatures in place -/

theorem fill_nil (ks : List κ) : fill fits [] ks = ks.map fun _ => none := rfl

/-- **What becomes of the first key**: it takes the first signature if that fits, stays free if the
signature fits a later key, and is looked at again if the signature is left out. -/
theorem fill_cons_cons (s : σ) (ss : List σ) (k : κ) (ks : List κ) :
    fill fits (s :: ss) (k :: ks) =
      if fits k s then some s :: fill fits ss ks
      else if ks.any (fits · s) then none :: fill fits (s :: ss) ks
      else fill fits ss (k :: ks) := by
  by_cases hk : fits k s = true
  · simp [fill, List.findIdx?_cons, hk]
  · cases hj : ks.findIdx? (fits · s) with
    | none =>
      -- no key fits: the signature is left out and the same keys are looked at again
      have hno : ks.any (fits · s) = false := by
        simpa using List.findIdx?_eq_none_iff.1 hj
      simp [fill, List.findIdx?_cons, hk, hj, hno]
    | some j =>
      obtain ⟨hlt, hfits, -⟩ := List.findIdx?_eq_some_iff_getElem.1 hj
      have hany : ks.any (fits · s) = true := List.any_eq_true.2 ⟨_, List.getElem_mem hlt, hfits⟩
      simp [fill, List.findIdx?_cons, hk, hj, hany, List.replicate_succ]

/-- **Signatures are put where they fit.** -/
theorem inPlace_fill (ss : List σ) (ks : List κ) : InPlace fits (fill fits ss ks) ks := by
  induction ss generalizing ks with
  | nil => exact inPlace_map_none ks
  | cons s ss ih =>
    induction ks with
    | nil => exact ih []
    | cons k ks ihk =>
      rw [fill_cons_cons]
      split
      · next hfits =>
        refine .cons ?_ (ih ks)
        rintro s' ⟨⟩
        exact hfits
      · split
        · exact .cons (fun _ h => nomatch h) ihk
        · exact ih (k :: ks)

/-- Signatures are put in place in their order, though some may be left out. -/
theorem reduceOption_fill_sublist (ss : List σ) (ks : List κ) :
    (fill fits ss ks).reduceOption.Sublist ss := by
  induction ss generalizing ks with
  | nil => rw [fill_nil, reduceOption_map_none]
  | cons s ss ih =>
    induction ks with
    | nil => exact (ih []).cons s
    | cons k ks ihk =>
      rw [fill_cons_cons]
      split
      · exact (ih ks).cons_cons s
      · split
        · exact ihk
        · exact (ih (k :: ks)).cons s

/-- **No signature is left out** if they can be laid along the keys. -/
theorem reduceOption_fill {ss : List σ} {ks : List κ}
    (h : List.SublistForall₂ (fun s k => fits k s = true) ss ks) :
    (fill fits ss ks).reduceOption = ss := by
  induction ks generalizing ss with
  | nil =>
    cases h
    rfl
  | cons k ks ih =>
    cases ss with
    | nil => exact reduceOption_map_none (k :: ks)
    | cons s ss =>
      rw [fill_cons_cons]
      split
      · rw [List.reduceOption_cons_of_some, ih (sublistForall₂_tails h)]
      · next hfits =>
        have hrest : List.SublistForall₂ (fun s k => fits k s = true) (s :: ss) ks := by
          cases h with
          | cons h _ => exact absurd h hfits
          | cons_right h => exact h
        have hany : ks.any (fits · s) = true := by
          obtain ⟨ks', hf, hs⟩ := List.sublistForall₂_iff.1 hrest
          cases hf with
          | cons hfits _ => exact List.any_eq_true.2 ⟨_, hs.subset List.mem_cons_self, hfits⟩
        rw [if_pos hany, List.reduceOption_cons_of_none, ih hrest]

/-- **Signatures return to their places** if none fits a key in front of its own. -/
theorem fill_reduceOption {slots : List (Option σ)} {ks : List κ} (h : InPlace fits slots ks)
    (hfirst : ∀ (i j : Nat) (k : κ) (s : σ), i < j → ks[i]? = some k → slots[j]? = some (some s) →
      fits k s = false) : fill fits slots.reduceOption ks = slots := by
  induction h with
  | nil => rfl
  | @cons slot k slots ks hs hrest ih =>
    have ih := ih fun i j k' s hij hk hslot =>
      hfirst (i + 1) (j + 1) k' s (Nat.succ_lt_succ hij) hk hslot
    cases slot with
    | some s => rw [List.reduceOption_cons_of_some, fill_cons_cons, if_pos (hs s rfl), ih]
    | none =>
      rw [List.reduceOption_cons_of_none]
      cases hss : slots.reduceOption with
      | nil =>
        rw [hss] at ih
        rw [fill_nil, List.map_cons, ← fill_nil, ih]
      | cons s ss =>
        have hmem : some s ∈ slots := List.reduceOption_mem_iff.1 (hss ▸ List.mem_cons_self)
        obtain ⟨j, hj⟩ := List.mem_iff_getElem?.1 hmem
        -- the next signature stands in a later place, so it does not fit this key
        have hno : fits k s = false := hfirst 0 (j + 1) k s (Nat.succ_pos j) rfl hj
        have hany : ks.any (fits · s) = true := by
          obtain ⟨hl, hfits⟩ := inPlace_iff.1 hrest
          have hlt : j < ks.length := hl ▸ (List.getElem?_eq_some_iff.1 hj).1
          exact List.any_eq_true.2
            ⟨_, List.getElem_mem hlt, hfits j _ s (List.getElem?_eq_getElem hlt) hj⟩
        rw [fill_cons_cons, hno, if_neg Bool.false_ne_true, if_pos hany, ← hss, ih]

/-- Signatures can be laid along the keys exactly if they are all those of entries in place. -/
theorem sublistForall₂_iff_inPlace {ss : List σ} {ks : List κ} :
    List.SublistForall₂ (fun s k => fits k s = true) ss ks ↔
      ∃ slots, InPlace fits slots ks ∧ slots.reduceOption = ss := by
  constructor
  · exact fun h => ⟨fill fits ss ks, inPlace_fill ss ks, reduceOption_fill h⟩
  · rintro ⟨slots, h, rfl⟩
    exact h.sublistForall₂

end WitnessSigning.Matching
