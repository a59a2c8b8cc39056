import WitnessSigning.Proofs.Text.Regroup

/-!
# How many values, and what is left over

Values of one width fill up to as many values of another as are needed to hold all their bits
(`WitnessSigning.Regroup.Fills.length_groups`). On the way back the bits that still wait at the
end are the remainder of all bits by the width that is written, since fewer than one value ever
waits (`WitnessSigning.Regroup.State.Holds.waiting_eq`), and they are the end of the number that
was read. So there are three reasons to refuse values on the way back and no other one: a value
does not fit its width, a whole value would be left over, or what is left over is not all zeros
(`WitnessSigning.Regroup.regroup?_exact_eq_none_iff`).

For octets and groups of five bits this is all that an address needs of regrouping
(`WitnessSigning.Regroup.regroup?_fives_exact`).
-/

namespace WitnessSigning.Regroup

variable {source target : Nat} {values groups : Bytes}

/-- **Values fill up** to as many groups as just hold all their bits. -/
theorem Fills.length_groups (h : Fills source target values groups) :
    groups.length = (source * values.length + (target - 1)) / target := by
  obtain ⟨fill, hlt, hlength, -⟩ := h.exists_fill
  rw [Nat.mul_comm] at hlength
  refine (Nat.div_eq_of_lt_le ?_ ?_).symm
  · -- One group less would not hold the bits, as fewer zeros are filled in than a group has bits.
    omega
  · rw [Nat.succ_mul]
    omega

/-- **The bits that wait** at the end are those that are left over from whole values. -/
theorem State.Holds.waiting_eq {s : State} (h : State.Holds source target values s)
    (hw : s.waiting < target) : s.waiting = source * values.length % target := by
  rw [h.length, Nat.mul_add_mod, Nat.mod_eq_of_lt hw]

/-- **What is refused on the way back** from narrow values: a value that does not fit, as many
bits left over as a value has, or bits left over that are not zero. -/
theorem regroup?_exact_eq_none_iff (hs : source ≤ 8) (ht : 0 < target) (ht' : target ≤ 8) :
    regroup? source target false groups = none ↔
      (∃ v ∈ groups, 2 ^ source ≤ v.toNat) ∨ source ≤ source * groups.length % target ∨
        number source groups % 2 ^ (source * groups.length % target) ≠ 0 := by
  by_cases hfit : ∀ v ∈ groups, v.toNat < 2 ^ source
  · obtain ⟨s, hrun⟩ := State.exists_foldlM_read? hfit State.empty
    obtain ⟨-, hholds, hw⟩ := State.holds_of_foldlM hs ht ht' hrun
    have hwide : ¬∃ v ∈ groups, 2 ^ source ≤ v.toNat := by
      rintro ⟨v, hv, hle⟩
      exact (hfit v hv).not_ge hle
    have hregroup : regroup? source target false groups = none ↔
        ¬(s.waiting < source ∧ s.rest target = 0) := by
      rw [regroup?_exact_of_foldlM hrun, ite_eq_right_iff]
      exact forall_congr' fun _ => iff_of_false (Option.some_ne_none _) not_false
    rw [hregroup, or_iff_right hwide, hholds.rest_eq_zero_iff ht' hw, ← hholds.waiting_eq hw,
      not_and_or, Nat.not_lt]
  · refine iff_of_true ?_ (.inl ?_)
    · rcases h : regroup? source target false groups with _ | values
      · rfl
      · obtain ⟨s, hrun, -⟩ := Option.bind_eq_some_iff.1 h
        exact absurd (State.holds_of_foldlM hs ht ht' hrun).1 hfit
    · push Not at hfit
      exact hfit

/-- **Octets and groups of five bits.** Octets of any number are filled up to the groups that just
hold their bits, and are read back from them. Any values are read back as the octets that they are
the groups of, and as nothing else; they are refused for a value of six bits or more, for five
bits or more that are left over from whole octets, and for bits left over that are not zero. -/
theorem regroup?_fives_exact :
    (∀ octets : Bytes, ∃ fives : Bytes, regroup? 8 5 true octets = some fives ∧
      fives.length = (8 * octets.length + 4) / 5 ∧ (∀ v ∈ fives, v.toNat < 32) ∧
      regroup? 5 8 false fives = some octets) ∧
    ∀ fives : Bytes,
      (∀ octets : Bytes,
        regroup? 5 8 false fives = some octets ↔ regroup? 8 5 true octets = some fives) ∧
      (regroup? 5 8 false fives = none ↔
        (∃ v ∈ fives, 32 ≤ v.toNat) ∨ 5 ≤ 5 * fives.length % 8 ∨
          number 5 fives % 2 ^ (5 * fives.length % 8) ≠ 0) := by
  have hback : ∀ {fives octets : Bytes},
      regroup? 5 8 false fives = some octets ↔ regroup? 8 5 true octets = some fives :=
    regroup?_exact_eq_some_iff_fill (by omega) (by omega) (by omega)
  refine ⟨fun octets => ?_, fun fives => ⟨fun octets => hback, ?_⟩⟩
  · obtain ⟨fives, hfills⟩ : ∃ fives, Fills 8 5 octets fives :=
      exists_fills (by omega) (by omega) (by omega) fun v _ => v.toNat_lt
    have hfill : regroup? 8 5 true octets = some fives :=
      (regroup?_fill_eq_some_iff (by omega) (by omega) (by omega)).2 hfills
    exact ⟨fives, hfill, hfills.length_groups, hfills.lt_target, hback.2 hfill⟩
  · exact regroup?_exact_eq_none_iff (by omega) (by omega) (by omega)

end WitnessSigning.Regroup
