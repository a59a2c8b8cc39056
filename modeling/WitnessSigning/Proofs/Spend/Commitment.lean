import Mathlib.Data.List.Nodup
import WitnessSigning.Proofs.Transaction.RoundTrip
import WitnessSigning.Spend.Coin

/-!
# What a signature commits to

The octets that are hashed for an input are fields one behind the other, each of which shows where
it ends, so equal octets have equal fields (`WitnessSigning.Transaction.messageWith_inj`). Three
of the fields are themselves hashes of concatenations without counts, and these show where their
items end as well. As long as none of the strings collide, equal digests thus belong to
transactions that are equal in all that is signed (`WitnessSigning.Transaction.SameSigned`).

What is not signed are the unlocking scripts and the witnesses: a digest is that of the transaction
without either (`WitnessSigning.Transaction.digest_unsigned`). Both directions are in
`WitnessSigning.Transaction.digest_commits`.
-/

namespace WitnessSigning

/-! ### What is not signed -/

/-- An input with an empty unlocking script and an empty witness. -/
def TxInput.unsigned (input : TxInput) : TxInput :=
  { input with unlocking := [], witness := [] }

namespace Transaction

/-- **The transaction without what no signature commits to.** -/
def unsigned (tx : Transaction) : Transaction :=
  { tx with inputs := tx.inputs.map TxInput.unsigned }

section Unsigned

variable {tx tx' : Transaction}

theorem inputAt_unsigned (index : Nat) :
    tx.unsigned.inputAt index = (tx.inputAt index).map TxInput.unsigned := by
  rw [inputAt, inputAt, unsigned, List.getElem?_map, List.length_map]
  cases tx.inputs[index]? with
  | none => rfl
  | some input => rfl

theorem commitments_unsigned : tx.unsigned.commitments = tx.commitments := by
  have hsources : tx.unsigned.sourceOctets = tx.sourceOctets := List.flatMap_map _ _ _
  have hsequences : tx.unsigned.sequenceOctets = tx.sequenceOctets := List.flatMap_map _ _ _
  rw [commitments, commitments, hsources, hsequences]
  rfl

/-- **Unlocking scripts and witnesses take no part in what is signed.** -/
theorem digest_unsigned (index : Nat) (scriptCode : Bytes) (value : UInt64) :
    tx.unsigned.digest tx.unsigned.commitments index scriptCode value =
      tx.digest tx.commitments index scriptCode value := by
  rw [digest, digest, message, message, inputAt_unsigned, commitments_unsigned]
  cases tx.inputAt index with
  | error e => rfl
  | ok input => rfl

theorem digest_congr (h : tx.unsigned = tx'.unsigned) (index : Nat) (scriptCode : Bytes)
    (value : UInt64) :
    tx.digest tx.commitments index scriptCode value =
      tx'.digest tx'.commitments index scriptCode value := by
  rw [← digest_unsigned, h, digest_unsigned]

/-- What differs in witnesses only has the same digests. -/
theorem coinDigest_congr (h : tx.stripped = tx'.stripped) (index : Nat) (coin : Coin) :
    tx.coinDigest index coin = tx'.coinDigest index coin := by
  have hstripped : ∀ tx : Transaction, tx.stripped.unsigned = tx.unsigned := by
    intro tx
    rw [unsigned, stripped, List.map_map]
    rfl
  refine digest_congr ?_ index _ _
  rw [← hstripped tx, h, hstripped]

end Unsigned

/-! ### What a witness does not touch -/

section SetWitness

variable {tx : Transaction} {index : Nat} {witness : Witness}

/-- **What does not look at witnesses** is not changed by replacing one. -/
theorem map_setWitness {α : Type} {f : TxInput → α}
    (hf : ∀ (input : TxInput) (witness : Witness), f { input with witness } = f input) :
    (tx.setWitness index witness).inputs.map f = tx.inputs.map f := by
  refine List.ext_getElem? fun i => ?_
  rw [List.getElem?_map, List.getElem?_map, setWitness, List.getElem?_modify]
  cases tx.inputs[i]? with
  | none => rfl
  | some input =>
    by_cases hi : index = i
    · simp [hi, hf]
    · simp [hi]

theorem stripped_setWitness : (tx.setWitness index witness).stripped = tx.stripped := by
  rw [stripped, map_setWitness fun _ _ => rfl]
  rfl

/-- **No witness takes part in what is signed.** -/
theorem coinDigest_setWitness (i : Nat) (coin : Coin) :
    (tx.setWitness index witness).coinDigest i coin = tx.coinDigest i coin :=
  coinDigest_congr stripped_setWitness i coin

end SetWitness

/-! ### What is signed -/

/-- **The octets that are hashed tell their fields apart.** -/
theorem messageWith_inj {tx tx' : Transaction} {shared shared' : Commitments}
    {input input' : TxInput} {scriptCode scriptCode' : Bytes} {value value' : UInt64}
    (hc : Wire.Countable scriptCode) (hc' : Wire.Countable scriptCode')
    (h : tx.messageWith shared input scriptCode value =
      tx'.messageWith shared' input' scriptCode' value') :
    (tx.version = tx'.version ∧ tx.lockTime = tx'.lockTime ∧ shared = shared') ∧
      (input.source = input'.source ∧ input.sequence = input'.sequence) ∧
        scriptCode = scriptCode' ∧ value = value' := by
  rw [messageWith, messageWith] at h
  obtain ⟨hversion, h⟩ := Wire.reads_u32.append_inj trivial trivial h
  have hversion : tx.version = tx'.version := by
    simpa only [Int32.toInt32_toUInt32] using congrArg UInt32.toInt32 hversion
  obtain ⟨hsources, h⟩ := (Wire.reads_octets 32).append_inj trivial trivial h
  obtain ⟨hsequences, h⟩ := (Wire.reads_octets 32).append_inj trivial trivial h
  obtain ⟨hsource, h⟩ := reads_outpoint.append_inj trivial trivial h
  obtain ⟨hcode, h⟩ := Wire.reads_sized.append_inj hc hc' h
  obtain ⟨hvalue, h⟩ := Wire.reads_u64.append_inj trivial trivial h
  obtain ⟨hsequence, h⟩ := Wire.reads_u32.append_inj trivial trivial h
  obtain ⟨houtputs, h⟩ := (Wire.reads_octets 32).append_inj trivial trivial h
  obtain ⟨hlock, -⟩ := Wire.reads_u32.append_inj trivial trivial h
  have hshared : shared = shared' := by
    cases shared; cases shared'; cases hsources; cases hsequences; cases houtputs; rfl
  exact ⟨⟨hversion, hlock, hshared⟩, ⟨hsource, hsequence⟩, hcode, hvalue⟩

/-- An outpoint takes up octets. -/
theorem encode_outpoint_ne_nil (o : Outpoint) : o.encode ≠ [] := by
  refine List.append_ne_nil_of_right_ne_nil _ (List.ne_nil_of_length_pos ?_)
  rw [Wire.u32, length_littleEndian]
  decide

/-- **The concatenation of the outpoints** determines their list. -/
theorem sourceOctets_inj {tx tx' : Transaction} (h : tx.sourceOctets = tx'.sourceOctets) :
    tx.inputs.map TxInput.source = tx'.inputs.map TxInput.source := by
  have hlist : ∀ tx : Transaction, tx.sourceOctets =
      (tx.inputs.map TxInput.source).flatMap Outpoint.encode :=
    fun _ => (List.flatMap_map _ _ _).symm
  rw [hlist, hlist] at h
  exact
    reads_outpoint.flatMap_inj encode_outpoint_ne_nil (fun _ _ => trivial) (fun _ _ => trivial) h

/-- **The concatenation of the sequence numbers** determines their list. -/
theorem sequenceOctets_inj {tx tx' : Transaction} (h : tx.sequenceOctets = tx'.sequenceOctets) :
    tx.inputs.map TxInput.sequence = tx'.inputs.map TxInput.sequence := by
  have hlist : ∀ tx : Transaction, tx.sequenceOctets =
      (tx.inputs.map TxInput.sequence).flatMap Wire.u32 :=
    fun _ => (List.flatMap_map _ _ _).symm
  rw [hlist, hlist] at h
  refine Wire.reads_u32.flatMap_inj (fun v => ?_) (fun _ _ => trivial) (fun _ _ => trivial) h
  exact List.ne_nil_of_length_pos (by rw [Wire.u32, length_littleEndian]; decide)

/-- **The concatenation of the outputs** determines their list, however long their scripts are. -/
theorem outputOctets_inj {tx tx' : Transaction}
    (hc : ∀ output ∈ tx.outputs, Wire.Countable output.locking)
    (hc' : ∀ output ∈ tx'.outputs, Wire.Countable output.locking)
    (h : tx.outputOctets = tx'.outputOctets) : tx.outputs = tx'.outputs := by
  refine reads_output.flatMap_inj (fun output => ?_) hc hc' h
  refine List.append_ne_nil_of_left_ne_nil (List.ne_nil_of_length_pos ?_) _
  rw [Wire.u64, length_littleEndian]
  decide

/-- The strings that are hashed on the way to a digest: the octets for the input and the three
concatenations. -/
def hashed (tx : Transaction) (input : TxInput) (scriptCode : Bytes) (value : UInt64) :
    List Bytes :=
  [tx.messageWith tx.commitments input scriptCode value, tx.sourceOctets, tx.sequenceOctets,
    tx.outputOctets]

/-- **No two of some strings collide**: those with equal hashes are equal. -/
def CollisionFree (strings : List Bytes) : Prop :=
  ∀ a ∈ strings, ∀ b ∈ strings, doubleSha256 a = doubleSha256 b → a = b

/-- Strings whose hashes start with different octets do not collide. -/
theorem collisionFree_of_nodup {strings : List Bytes}
    (h : (strings.map fun bs => (doubleSha256 bs).toList.head?).Nodup) :
    CollisionFree strings :=
  fun _ ha _ hb he =>
    List.inj_on_of_nodup_map h ha hb (congrArg (fun hash => hash.toList.head?) he)

/-- **Two inputs of transactions with all that is signed in common.** -/
structure SameSigned (tx tx' : Transaction) (index index' : Nat) (input input' : TxInput) :
    Prop where
  version : tx.version = tx'.version
  lockTime : tx.lockTime = tx'.lockTime
  sources : tx.inputs.map TxInput.source = tx'.inputs.map TxInput.source
  sequences : tx.inputs.map TxInput.sequence = tx'.inputs.map TxInput.sequence
  outputs : tx.outputs = tx'.outputs
  source : input.source = input'.source
  sequence : input.sequence = input'.sequence
  /-- If no outpoint occurs twice, it is the same place. -/
  place : (tx.inputs.map TxInput.source).Nodup → index = index'

theorem inputAt_eq_ok_iff {tx : Transaction} {index : Nat} {input : TxInput} :
    tx.inputAt index = .ok input ↔ tx.inputs[index]? = some input := by
  rw [inputAt]
  cases tx.inputs[index]? with
  | none => simp
  | some input' => simp

theorem getElem?_map_source {tx : Transaction} {index : Nat} {input : TxInput}
    (h : tx.inputAt index = .ok input) :
    (tx.inputs.map TxInput.source)[index]? = some input.source := by
  rw [List.getElem?_map, inputAt_eq_ok_iff.1 h, Option.map_some]

theorem digest_eq_ok {tx : Transaction} {index : Nat} {input : TxInput} {scriptCode : Bytes}
    {value : UInt64} (h : tx.inputAt index = .ok input) :
    tx.digest tx.commitments index scriptCode value =
      .ok (doubleSha256 (tx.messageWith tx.commitments input scriptCode value)) := by
  rw [digest, message, h]
  rfl

/-- **What a digest commits to.** As long as none of the strings that are hashed collide, equal
digests belong to equal versions, lock times, outpoints, sequence numbers and outputs, to the same
signed outpoint and sequence number, and to the same script and value. Conversely, transactions that
differ in unlocking scripts and witnesses only have the same digests in all places. -/
theorem digest_commits :
    (∀ (tx tx' : Transaction) (index index' : Nat) (input input' : TxInput)
        (scriptCode scriptCode' : Bytes) (value value' : UInt64),
      tx.inputAt index = .ok input → tx'.inputAt index' = .ok input' →
      (Wire.Countable scriptCode ∧ ∀ output ∈ tx.outputs, Wire.Countable output.locking) →
      (Wire.Countable scriptCode' ∧ ∀ output ∈ tx'.outputs, Wire.Countable output.locking) →
      CollisionFree (tx.hashed input scriptCode value ++ tx'.hashed input' scriptCode' value') →
      tx.digest tx.commitments index scriptCode value =
        tx'.digest tx'.commitments index' scriptCode' value' →
      SameSigned tx tx' index index' input input' ∧ scriptCode = scriptCode' ∧ value = value') ∧
    ∀ tx tx' : Transaction, tx.unsigned = tx'.unsigned →
      ∀ (index : Nat) (scriptCode : Bytes) (value : UInt64),
        tx.digest tx.commitments index scriptCode value =
          tx'.digest tx'.commitments index scriptCode value := by
  refine ⟨?_, fun tx tx' h => digest_congr h⟩
  intro tx tx' index index' input input' scriptCode scriptCode' value value' hin hin' hc hc' hfree h
  -- each hash is among those of the transaction or those of the other one
  have hinj : ∀ a ∈ tx.hashed input scriptCode value, ∀ b ∈ tx'.hashed input' scriptCode' value',
      doubleSha256 a = doubleSha256 b → a = b :=
    fun a ha b hb => hfree a (List.mem_append_left _ ha) b (List.mem_append_right _ hb)
  rw [digest_eq_ok hin, digest_eq_ok hin'] at h
  have hmessage := hinj _ (by simp [hashed]) _ (by simp [hashed]) (Except.ok.inj h)
  obtain ⟨⟨hversion, hlock, hshared⟩, ⟨hsource, hsequence⟩, hcode, hvalue⟩ :=
    messageWith_inj hc.1 hc'.1 hmessage
  have hsources := sourceOctets_inj (hinj _ (by simp [hashed]) _ (by simp [hashed])
    (congrArg Commitments.sources hshared))
  have hsequences := sequenceOctets_inj (hinj _ (by simp [hashed]) _ (by simp [hashed])
    (congrArg Commitments.sequences hshared))
  have houtputs := outputOctets_inj hc.2 hc'.2 (hinj _ (by simp [hashed]) _ (by simp [hashed])
    (congrArg Commitments.outputs hshared))
  refine ⟨⟨hversion, hlock, hsources, hsequences, houtputs, hsource, hsequence, fun hnodup => ?_⟩,
    hcode, hvalue⟩
  have hplace := getElem?_map_source hin
  have hplace' := getElem?_map_source hin'
  rw [← hsources, ← hsource] at hplace'
  obtain ⟨hlt, hget⟩ := List.getElem?_eq_some_iff.1 hplace
  obtain ⟨hlt', hget'⟩ := List.getElem?_eq_some_iff.1 hplace'
  exact (List.Nodup.getElem_inj_iff hnodup).1 (hget.trans hget'.symm)

/-- Two inputs that spend the same outpoint have the same digest in different places, also if one of
them has an unlocking script and a witness. -/
theorem digest_commits_twice :
    let input : TxInput :=
      { source := { transaction := Octets.replicate 32 7, index := 1 }, unlocking := []
        sequence := finalSequence, witness := [] }
    let input' : TxInput := { input with unlocking := [0x51], witness := [[], [1]] }
    let tx : Transaction := { version := 2, inputs := [input, input], outputs := [], lockTime := 0 }
    let tx' : Transaction := { tx with inputs := [input, input'] }
    CollisionFree (tx.hashed input [0x51] 5 ++ tx'.hashed input' [0x51] 5) ∧
      tx.digest tx.commitments 0 [0x51] 5 = tx'.digest tx'.commitments 1 [0x51] 5 ∧
        SameSigned tx tx' 0 1 input input' ∧
          tx.digest tx.commitments 1 [0x51] 5 = tx'.digest tx'.commitments 1 [0x51] 5 := by
  intro input input' tx tx'
  have hdistinct :
      ((tx.hashed input [0x51] 5).map fun bs => (doubleSha256 bs).toList.head?).Nodup := by
    decide +kernel
  have hsame : tx'.hashed input' [0x51] 5 = tx.hashed input [0x51] 5 := rfl
  have hfree : CollisionFree (tx.hashed input [0x51] 5 ++ tx'.hashed input' [0x51] 5) := by
    rw [hsame]
    intro a ha b hb
    exact collisionFree_of_nodup hdistinct a (by simpa using ha) b (by simpa using hb)
  have hdigest : tx.digest tx.commitments 0 [0x51] 5 = tx'.digest tx'.commitments 1 [0x51] 5 := rfl
  have hc : Wire.Countable [(0x51 : UInt8)] ∧
      ∀ output ∈ tx.outputs, Wire.Countable output.locking :=
    ⟨by decide, fun _ hout => nomatch hout⟩
  obtain ⟨hsigned, hconverse⟩ := digest_commits
  exact ⟨hfree, hdigest, (hsigned tx tx' 0 1 input input' _ _ 5 5 rfl rfl hc hc hfree hdigest).1,
    hconverse tx tx' rfl 1 _ 5⟩

end Transaction

end WitnessSigning
