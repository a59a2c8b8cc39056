import WitnessSigning.Proofs.Spend.Commitment

/-!
# What an identifier commits to

The octets behind an identifier are those of a transaction without witnesses and without the
marker in front of them. So nothing in them depends on a witness
(`WitnessSigning.Transaction.encodeStripped_stripped`). All the rest is in them, each list
behind its count, and can be told apart from the front
(`WitnessSigning.Transaction.stripped_eq_of_encodeStripped_eq`). This includes the transactions
that look marked: they do not read back, but as no marker is ever written here, there is
nothing that they could be taken for.
-/

namespace WitnessSigning.Transaction

variable {tx tx' : Transaction}

/-! ### Nothing of the witnesses -/

/-- **No witness is among the octets that an identifier hashes.** -/
theorem encodeStripped_stripped (tx : Transaction) :
    tx.stripped.encodeStripped = tx.encodeStripped := by
  have hinputs : Wire.count tx.stripped.inputs ++ tx.stripped.inputs.flatMap TxInput.encode =
      Wire.count tx.inputs ++ tx.inputs.flatMap TxInput.encode := encode_map_bare tx.inputs
  rw [encodeStripped, encodeStripped, layout, layout, hinputs]
  rfl

theorem encodeStripped_congr (h : tx.stripped = tx'.stripped) :
    tx.encodeStripped = tx'.encodeStripped := by
  rw [← encodeStripped_stripped tx, h, encodeStripped_stripped]

/-- **The identifier does not depend on witnesses.** -/
theorem id_stripped (tx : Transaction) : tx.stripped.id = tx.id := by
  rw [id, id, encodeStripped_stripped]

/-! ### All of the rest -/

/-- Without their witnesses, the inputs of a transaction can be written. -/
theorem Countable.stripped_inputs (h : tx.Countable) : Wire.Countable tx.stripped.inputs ∧
    ∀ input ∈ tx.stripped.inputs, Wire.Countable input.unlocking ∧ input.witness = [] := by
  refine ⟨?_, fun _ hin => ?_⟩
  · rw [Wire.Countable, stripped, List.length_map]
    exact h.inputs
  · obtain ⟨input, hmem, rfl⟩ := List.mem_map.1 hin
    exact ⟨(h.input input hmem).unlocking, rfl⟩

/-- **The octets that an identifier hashes** determine the transaction but for its witnesses. -/
theorem stripped_eq_of_encodeStripped_eq (h : tx.Countable) (h' : tx'.Countable)
    (he : tx.encodeStripped = tx'.encodeStripped) : tx.stripped = tx'.stripped := by
  rw [← encodeStripped_stripped tx, ← encodeStripped_stripped tx', encodeStripped, encodeStripped,
    layout, layout] at he
  simp only [Bool.false_eq_true, if_false, List.nil_append] at he
  obtain ⟨hversion, he⟩ := Wire.reads_u32.append_inj trivial trivial he
  obtain ⟨hinputs, he⟩ :=
    (Wire.reads_counted reads_input).append_inj h.stripped_inputs h'.stripped_inputs he
  obtain ⟨houtputs, he⟩ :=
    (Wire.reads_counted reads_output).append_inj ⟨h.outputs, h.output⟩ ⟨h'.outputs, h'.output⟩ he
  rw [← List.append_nil (Wire.u32 _), ← List.append_nil (Wire.u32 tx'.stripped.lockTime)] at he
  obtain ⟨hlock, -⟩ := Wire.reads_u32.append_inj trivial trivial he
  have hversion : tx.stripped.version = tx'.stripped.version := by
    simpa only [Int32.toInt32_toUInt32] using congrArg UInt32.toInt32 hversion
  rw [stripped, stripped, mk.injEq]
  exact ⟨hversion, hinputs, houtputs, hlock⟩

/-- **An identifier is blind to witnesses and to nothing else.** Transactions that differ
in witnesses only have the same identifier. The octets that are hashed are equal for no
other ones, whether or not the transactions would read back from them. So unless the two
strings collide, equal identifiers belong to equal versions, inputs up to their
witnesses, outputs and lock times. -/
theorem id_commits :
    (∀ tx tx' : Transaction, tx.stripped = tx'.stripped → tx.id = tx'.id) ∧
      ∀ tx tx' : Transaction, tx.Countable → tx'.Countable →
        (tx.encodeStripped = tx'.encodeStripped ↔ tx.stripped = tx'.stripped) ∧
          (CollisionFree [tx.encodeStripped, tx'.encodeStripped] → tx.id = tx'.id →
            tx.version = tx'.version ∧
              tx.inputs.map TxInput.bare = tx'.inputs.map TxInput.bare ∧
              tx.outputs = tx'.outputs ∧ tx.lockTime = tx'.lockTime) := by
  refine ⟨fun tx tx' h => ?_,
    fun tx tx' hc hc' => ⟨⟨?_, encodeStripped_congr⟩, fun hfree hid => ?_⟩⟩
  · rw [← id_stripped tx, h, id_stripped]
  · exact stripped_eq_of_encodeStripped_eq hc hc'
  · have hoctets : tx.encodeStripped = tx'.encodeStripped :=
      hfree _ List.mem_cons_self _ (List.mem_cons_of_mem _ List.mem_cons_self) hid
    have hstripped := stripped_eq_of_encodeStripped_eq hc hc' hoctets
    rw [stripped, stripped, mk.injEq] at hstripped
    exact hstripped

/-- Two transactions without inputs and with the same single output, which both do not read back,
have different identifiers because they have different lock times. -/
theorem id_commits_unread :
    let tx : Transaction :=
      { version := 2, inputs := [], outputs := [{ value := 5, locking := [0x51] }], lockTime := 0 }
    let tx' : Transaction := { tx with lockTime := 1 }
    (tx.Countable ∧ tx'.Countable) ∧ tx.encodeStripped ≠ tx'.encodeStripped ∧
      CollisionFree [tx.encodeStripped, tx'.encodeStripped] ∧ tx.id ≠ tx'.id := by
  intro tx tx'
  have houtput : ∀ output ∈ tx.outputs, Wire.Countable output.locking := by decide
  have hc : tx.Countable := ⟨by decide, by decide, nofun, houtput⟩
  have hc' : tx'.Countable := ⟨by decide, by decide, nofun, houtput⟩
  have hfree : CollisionFree [tx.encodeStripped, tx'.encodeStripped] :=
    collisionFree_of_nodup (by decide +kernel)
  obtain ⟨hoctets, hid⟩ := id_commits.2 tx tx' hc hc'
  refine ⟨⟨hc, hc'⟩, ?_, hfree, fun h => ?_⟩
  · rw [Ne, hoctets]
    decide
  · obtain ⟨-, -, -, hlock⟩ := hid hfree h
    cases hlock

end WitnessSigning.Transaction
