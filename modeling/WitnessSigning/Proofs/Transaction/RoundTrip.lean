import WitnessSigning.Proofs.Wire.Reading
import WitnessSigning.Transaction.Codec

/-!
# Transactions are written in one way only

Reading a transaction accepts exactly what writing produces, with one exception that the format
itself brings along: without inputs the empty count and a single output look like the marker in
front of witnesses (`WitnessSigning.Transaction.LooksMarked`), so such a transaction is written but
never read. All of this is one statement, `WitnessSigning.Transaction.decode_eq_ok_iff`, which
follows the layout field by field with the readers of `WitnessSigning.Wire.Reads`.

Counts and lengths are words of 64 bits, so what is written has to fit them
(`WitnessSigning.Transaction.Countable`); whatever was read does.
-/

namespace WitnessSigning

open Wire (Cursor Reads)

/-! ### What can be written -/

/-- An input whose unlocking script, witness and witness items have lengths of 64 bits. -/
structure TxInput.Countable (input : TxInput) : Prop where
  unlocking : Wire.Countable input.unlocking
  witness : Wire.Countable input.witness
  item : ∀ bs ∈ input.witness, Wire.Countable bs

/-- **A transaction all of whose lists have lengths of 64 bits.** -/
structure Transaction.Countable (tx : Transaction) : Prop where
  inputs : Wire.Countable tx.inputs
  outputs : Wire.Countable tx.outputs
  input : ∀ input ∈ tx.inputs, input.Countable
  output : ∀ output ∈ tx.outputs, Wire.Countable output.locking

/-- A transaction can still be written with another witness that can be. -/
theorem Transaction.Countable.setWitness {tx : Transaction} (h : tx.Countable) {witness : Witness}
    (hw : Wire.Countable witness) (hitems : ∀ bs ∈ witness, Wire.Countable bs) (index : Nat) :
    (tx.setWitness index witness).Countable := by
  refine ⟨?_, h.outputs, fun input hin => ?_, h.output⟩
  · rw [Wire.Countable, Transaction.setWitness, List.length_modify]
    exact h.inputs
  · obtain ⟨i, hi⟩ := List.mem_iff_getElem?.1 hin
    rw [Transaction.setWitness, List.getElem?_modify] at hi
    obtain ⟨old, hold, rfl⟩ := Option.map_eq_some_iff.1 hi
    have hc := h.input old (List.mem_of_getElem? hold)
    split
    · exact ⟨hc.unlocking, hw, hitems⟩
    · exact hc

/-- **The transactions that do not read back**: the count of no inputs and the count of one output
are the two octets of the marker. -/
def Transaction.LooksMarked (tx : Transaction) : Prop :=
  tx.inputs = [] ∧ tx.outputs.length = 1

/-! ### Parts of a transaction -/

section Parts

theorem reads_outpoint : Reads Outpoint.read (fun _ => True) Outpoint.encode := by
  intro o c c'
  rw [Outpoint.read]
  simp only [Wire.Reader.bind_eq_ok, Wire.Reader.pure_eq_ok, Wire.reads_octets 32 _ _ _,
    Wire.reads_u32 _ _ _, true_and, Outpoint.encode, Cursor.passes_append]
  constructor
  · rintro ⟨transaction, m, hm, index, m', hm', rfl, rfl⟩
    exact ⟨m, hm, hm'⟩
  · rintro ⟨m, hm, hm'⟩
    exact ⟨_, m, hm, _, c', hm', rfl, rfl⟩

/-- An input is read without a witness. -/
theorem reads_input :
    Reads TxInput.read (fun input => Wire.Countable input.unlocking ∧ input.witness = [])
      TxInput.encode := by
  intro input c c'
  rw [TxInput.read]
  simp only [Wire.Reader.bind_eq_ok, Wire.Reader.pure_eq_ok, reads_outpoint _ _ _,
    Wire.reads_sized _ _ _, Wire.reads_u32 _ _ _, true_and, TxInput.encode, Cursor.passes_append]
  constructor
  · rintro ⟨source, m, hm, unlocking, m', ⟨hu, hm'⟩, sequence, m'', hm'', rfl, rfl⟩
    exact ⟨⟨hu, rfl⟩, m, hm, m', hm', hm''⟩
  · rintro ⟨⟨hu, hw⟩, m, hm, m', hm', hm''⟩
    refine ⟨_, m, hm, _, m', ⟨hu, hm'⟩, _, c', hm'', ?_, rfl⟩
    rw [← hw]

theorem reads_output :
    Reads TxOutput.read (fun output => Wire.Countable output.locking) TxOutput.encode := by
  intro output c c'
  rw [TxOutput.read]
  simp only [Wire.Reader.bind_eq_ok, Wire.Reader.pure_eq_ok, Wire.reads_u64 _ _ _,
    Wire.reads_sized _ _ _, true_and, TxOutput.encode, Cursor.passes_append]
  constructor
  · rintro ⟨value, m, hm, locking, m', ⟨hl, hm'⟩, rfl, rfl⟩
    exact ⟨hl, m, hm, hm'⟩
  · rintro ⟨hl, m, hm, hm'⟩
    exact ⟨_, m, hm, _, c', ⟨hl, hm'⟩, rfl, rfl⟩

theorem reads_witness :
    Reads (Wire.Reader.counted Wire.Reader.sized)
      (fun witness => Wire.Countable witness ∧ ∀ bs ∈ witness, Wire.Countable bs) encodeWitness :=
  Wire.reads_counted Wire.reads_sized

/-- An input without its witness. -/
def TxInput.bare (input : TxInput) : TxInput :=
  { input with witness := [] }

/-- The list of inputs is written without looking at their witnesses. -/
theorem encode_map_bare (inputs : List TxInput) :
    Wire.count (inputs.map TxInput.bare) ++ (inputs.map TxInput.bare).flatMap TxInput.encode =
      Wire.count inputs ++ inputs.flatMap TxInput.encode := by
  rw [Wire.count, List.length_map, List.flatMap_map]
  rfl

/-- The witness of one input is read in front of those of the inputs behind it. -/
theorem readWitnesses_cons (input : TxInput) (bare done : List TxInput) :
    readWitnesses (input :: bare) done = Wire.Reader.counted Wire.Reader.sized >>=
      fun witness => readWitnesses bare ({ input with witness } :: done) := by
  funext c
  rcases h : Wire.Reader.counted Wire.Reader.sized c with ⟨e | witness, m⟩
  · rw [readWitnesses, h, Wire.Reader.bind_of_error h]
  · rw [readWitnesses, h, Wire.Reader.bind_of_ok h]

/-- **The witnesses of inputs that were read without them.** -/
theorem readWitnesses_eq_ok {bare done inputs : List TxInput} {c c' : Cursor}
    (h : ∀ input ∈ bare, input.witness = []) :
    readWitnesses bare done c = (.ok inputs, c') ↔
      ∃ ys : List TxInput, inputs = done.reverse ++ ys ∧ ys.map TxInput.bare = bare ∧
        (∀ y ∈ ys, Wire.Countable y.witness ∧ ∀ bs ∈ y.witness, Wire.Countable bs) ∧
        c.Passes (ys.flatMap fun y => encodeWitness y.witness) c' := by
  induction bare generalizing done c with
  | nil =>
    simp only [readWitnesses, Prod.mk.injEq, Except.ok.injEq, List.map_eq_nil_iff]
    constructor
    · rintro ⟨rfl, rfl⟩
      exact ⟨[], by simp, rfl, by simp, Cursor.passes_nil.2 rfl⟩
    · rintro ⟨_, rfl, rfl, -, hp⟩
      exact ⟨by simp, Cursor.passes_nil.1 hp⟩
  | cons x bare ih =>
    have hx : x.witness = [] := h x (by simp)
    rw [readWitnesses_cons]
    simp only [Wire.Reader.bind_eq_ok, reads_witness _ _ _,
      ih fun input hi => h input (by simp [hi])]
    constructor
    · rintro ⟨w, m, ⟨hw, hm⟩, ys, rfl, rfl, hys, hp⟩
      refine ⟨{ x with witness := w } :: ys, by simp, ?_, ?_, Cursor.passes_append.2 ⟨m, hm, hp⟩⟩
      · rw [List.map_cons, TxInput.bare, ← hx]
      · simpa using ⟨hw, hys⟩
    · rintro ⟨_ | ⟨y, ys⟩, rfl, hmap, hys, hp⟩
      · cases hmap
      · obtain ⟨rfl, rfl⟩ := List.cons.inj hmap
        obtain ⟨m, hm, hp⟩ := Cursor.passes_append.1 hp
        exact ⟨y.witness, m, ⟨hys y (by simp), hm⟩, ys, by simp [TxInput.bare], rfl,
          fun z hz => hys z (by simp [hz]), hp⟩

end Parts

/-! ### The marker -/

namespace Transaction

theorem readMarker_true {c c' : Cursor} : readMarker c = (.ok true, c') ↔ c.Passes marker c' := by
  rw [Cursor.passes_iff_advance]
  rw [readMarker]
  split
  · next rest h => simp [h, marker, eq_comm]
  · next h =>
    simp only [Prod.mk.injEq, Except.ok.injEq, Bool.false_eq_true, false_and, false_iff, not_and]
    intro ht
    refine absurd (List.take_append_drop marker.length c.unread) fun hd => ?_
    rw [ht] at hd
    exact h _ hd.symm

theorem readMarker_false {c c' : Cursor} :
    readMarker c = (.ok false, c') ↔ (∀ rest, c.unread ≠ 0 :: 1 :: rest) ∧ c = c' := by
  rw [readMarker]
  split
  · next rest h => simp [h]
  · next h => simpa using fun _ => h

/-- **Octets behind the version look like a marker** exactly for transactions without inputs and
with one output. -/
theorem looksMarked_iff {tx : Transaction} (h : tx.Countable) (bs : Bytes) :
    tx.LooksMarked ↔ ∃ rest, (Wire.count tx.inputs ++ tx.inputs.flatMap TxInput.encode) ++
      ((Wire.count tx.outputs ++ tx.outputs.flatMap TxOutput.encode) ++ bs) = 0 :: 1 :: rest := by
  constructor
  · rintro ⟨hi, ho⟩
    rw [hi, Wire.count, Wire.count, ho]
    exact ⟨_, rfl⟩
  · rintro ⟨rest, he⟩
    rw [List.append_assoc] at he
    obtain ⟨hi, he⟩ := h.inputs.count_append_eq_cons (by decide) he
    have hi : tx.inputs = [] := List.length_eq_zero_iff.1 hi
    rw [hi, List.flatMap_nil, List.nil_append, List.append_assoc] at he
    exact ⟨hi, (h.outputs.count_append_eq_cons (by decide) he).1⟩

/-! ### Whole transactions -/

theorem hasWitness_eq_false_iff {tx : Transaction} :
    tx.hasWitness = false ↔ ∀ input ∈ tx.inputs, input.witness = [] := by
  simp [hasWitness]

/-- What lies between two cursors if a transaction does. -/
theorem passes_layout {tx : Transaction} {witnesses : Bool} {c c' : Cursor} :
    c.Passes (tx.layout witnesses) c' ↔
      ∃ m₀ m₁ m₂ m₃ m₄, c.Passes (Wire.u32 tx.version.toUInt32) m₀ ∧
        m₀.Passes (if witnesses then marker else []) m₁ ∧
        m₁.Passes (Wire.count tx.inputs ++ tx.inputs.flatMap TxInput.encode) m₂ ∧
        m₂.Passes (Wire.count tx.outputs ++ tx.outputs.flatMap TxOutput.encode) m₃ ∧
        m₃.Passes (if witnesses then tx.inputs.flatMap fun i => encodeWitness i.witness else [])
          m₄ ∧
        m₄.Passes (Wire.u32 tx.lockTime) c' := by
  rw [layout]
  constructor
  · intro h
    obtain ⟨m₀, hv, h⟩ := Cursor.passes_append.1 h
    obtain ⟨m₁, hm, h⟩ := Cursor.passes_append.1 h
    obtain ⟨m₂, hi, h⟩ := Cursor.passes_append.1 h
    obtain ⟨m₃, ho, h⟩ := Cursor.passes_append.1 h
    obtain ⟨m₄, hw, hl⟩ := Cursor.passes_append.1 h
    exact ⟨m₀, m₁, m₂, m₃, m₄, hv, hm, hi, ho, hw, hl⟩
  · rintro ⟨m₀, m₁, m₂, m₃, m₄, hv, hm, hi, ho, hw, hl⟩
    have h := Cursor.passes_append.2 ⟨m₄, hw, hl⟩
    have h := Cursor.passes_append.2 ⟨m₃, ho, h⟩
    have h := Cursor.passes_append.2 ⟨m₂, hi, h⟩
    have h := Cursor.passes_append.2 ⟨m₁, hm, h⟩
    exact Cursor.passes_append.2 ⟨m₀, hv, h⟩

/-- The end of a transaction: its lock time, unless a marker promised witnesses that are not there.
-/
def readEnd (version : UInt32) (marked : Bool) (outputs : List TxOutput) (inputs : List TxInput) :
    Wire.Reader Transaction :=
  if marked && inputs.all fun input => input.witness.isEmpty then
    Wire.Reader.fail .emptyWitnesses
  else do
    let lockTime ← Wire.Reader.u32
    return { version := version.toInt32, inputs, outputs, lockTime }

theorem readEnd_eq_ok {version : UInt32} {marked : Bool} {outputs : List TxOutput}
    {inputs : List TxInput} {tx : Transaction} {c c' : Cursor} :
    readEnd version marked outputs inputs c = (.ok tx, c') ↔
      (version = tx.version.toUInt32 ∧ inputs = tx.inputs ∧ outputs = tx.outputs) ∧
        (marked = true → tx.hasWitness = true) ∧ c.Passes (Wire.u32 tx.lockTime) c' := by
  have hall : (inputs.all fun input => input.witness.isEmpty) =
      !(inputs.any fun input => !input.witness.isEmpty) := by
    rw [List.all_eq_not_any_not]
  rw [readEnd]
  constructor
  · intro h
    split at h
    · exact absurd h Wire.Reader.fail_ne_ok
    · next hne =>
      simp only [Wire.Reader.bind_eq_ok, Wire.reads_u32 _ _ _, Wire.Reader.pure_eq_ok,
        true_and] at h
      obtain ⟨lockTime, _, hl, rfl, rfl⟩ := h
      refine ⟨⟨(version.toUInt32_toInt32).symm, rfl, rfl⟩, ?_, hl⟩
      rintro rfl
      simpa [hall, hasWitness] using hne
  · rintro ⟨⟨rfl, rfl, rfl⟩, hne, hl⟩
    have hne : ¬(marked && tx.inputs.all fun input => input.witness.isEmpty) = true := by
      rw [Bool.and_eq_true, hall]
      rintro ⟨hmarked, hw⟩
      exact absurd (hne hmarked) (by simpa [hasWitness] using hw)
    rw [if_neg hne]
    refine Wire.Reader.bind_eq_ok.2 ⟨tx.lockTime, c', (Wire.reads_u32 _ _ _).2 ⟨trivial, hl⟩, ?_⟩
    exact Wire.Reader.pure_eq_ok.2 ⟨by rw [Int32.toInt32_toUInt32], rfl⟩

/-- What was read as a transaction can be written and is what writing it produces. -/
theorem passes_of_read {tx : Transaction} {c c' : Cursor} (h : Transaction.read c = (.ok tx, c')) :
    (tx.Countable ∧ ¬tx.LooksMarked) ∧ c.Passes tx.encode c' := by
  obtain ⟨version, m₀, hv, h⟩ := Wire.Reader.bind_eq_ok.1 h
  obtain ⟨marked, m₁, hm, h⟩ := Wire.Reader.bind_eq_ok.1 h
  obtain ⟨bare, m₂, hi, h⟩ := Wire.Reader.bind_eq_ok.1 h
  obtain ⟨outputs, m₃, ho, h⟩ := Wire.Reader.bind_eq_ok.1 h
  obtain ⟨-, hv⟩ := (Wire.reads_u32 _ _ _).1 hv
  obtain ⟨⟨hic, hib⟩, hi⟩ := (Wire.reads_counted reads_input _ _ _).1 hi
  obtain ⟨⟨hoc, hol⟩, ho⟩ := (Wire.reads_counted reads_output _ _ _).1 ho
  cases marked with
  | true =>
    obtain ⟨inputs, m₄, hw, h⟩ := Wire.Reader.bind_eq_ok.1 h
    obtain ⟨⟨rfl, rfl, rfl⟩, hwit, hl⟩ := readEnd_eq_ok.1 h
    obtain ⟨ys, hys, rfl, hws, hw⟩ := (readWitnesses_eq_ok fun i hi => (hib i hi).2).1 hw
    obtain rfl : tx.inputs = ys := hys
    have hi : m₁.Passes (Wire.count tx.inputs ++ tx.inputs.flatMap TxInput.encode) m₂ :=
      encode_map_bare tx.inputs ▸ hi
    have hmem : ∀ input ∈ tx.inputs, input.bare ∈ tx.inputs.map TxInput.bare :=
      fun input => List.mem_map_of_mem
    refine ⟨⟨⟨?_, hoc, fun input hin => ?_, hol⟩, ?_⟩, ?_⟩
    · simpa [Wire.Countable] using hic
    · exact ⟨(hib _ (hmem input hin)).1, (hws input hin).1, (hws input hin).2⟩
    · rintro ⟨hnil, -⟩
      -- a marker promises a witness, and a witness belongs to an input
      simpa [hasWitness, hnil] using hwit rfl
    · rw [encode, hwit rfl]
      exact passes_layout.2 ⟨m₀, m₁, m₂, m₃, m₄, hv, readMarker_true.1 hm, hi, ho, hw, hl⟩
  | false =>
    obtain ⟨inputs, m₄, hw, h⟩ := Wire.Reader.bind_eq_ok.1 h
    obtain ⟨⟨rfl, rfl, rfl⟩, -, hl⟩ := readEnd_eq_ok.1 h
    obtain ⟨rfl, rfl⟩ := Wire.Reader.pure_eq_ok.1 hw
    obtain ⟨hno, rfl⟩ := readMarker_false.1 hm
    have hbare : ∀ input ∈ tx.inputs, input.witness = [] := fun input hin => (hib input hin).2
    have hc : tx.Countable := by
      refine ⟨hic, hoc, fun input hin => ⟨(hib input hin).1, ?_, ?_⟩, hol⟩
      · rw [hbare input hin]
        exact Nat.zero_lt_succ _
      · simp [hbare input hin]
    refine ⟨⟨hc, fun hmarked => ?_⟩, ?_⟩
    · -- what was passed behind the version is what the marker was looked for in
      obtain ⟨rest, hrest⟩ := (looksMarked_iff hc m₃.unread).1 hmarked
      exact hno rest (by rw [hi.1, ho.1, hrest])
    · rw [encode, hasWitness_eq_false_iff.2 hbare]
      exact passes_layout.2
        ⟨m₀, m₀, m₂, m₃, m₃, hv, Cursor.passes_nil.2 rfl, hi, ho, Cursor.passes_nil.2 rfl, hl⟩

/-- What writing a transaction produces is read as it, unless it looks like a marker. -/
theorem read_of_passes {tx : Transaction} {c c' : Cursor} (hc : tx.Countable) (hn : ¬tx.LooksMarked)
    (hp : c.Passes tx.encode c') : Transaction.read c = (.ok tx, c') := by
  rw [encode] at hp
  obtain ⟨m₀, m₁, m₂, m₃, m₄, hv, hm, hi, ho, hw, hl⟩ := passes_layout.1 hp
  have hread : TxOutput.read.counted m₂ = (.ok tx.outputs, m₃) :=
    (Wire.reads_counted reads_output _ _ _).2 ⟨⟨hc.outputs, hc.output⟩, ho⟩
  refine Wire.Reader.bind_eq_ok.2 ⟨_, m₀, (Wire.reads_u32 _ _ _).2 ⟨trivial, hv⟩, ?_⟩
  rcases hwit : tx.hasWitness with _ | _
  · -- without witnesses there is no marker, and nothing may be taken for one
    have hbare := hasWitness_eq_false_iff.1 hwit
    rw [hwit] at hm hw
    obtain rfl := Cursor.passes_nil.1 hm
    obtain rfl := Cursor.passes_nil.1 hw
    refine Wire.Reader.bind_eq_ok.2
      ⟨false, m₀, readMarker_false.2 ⟨fun rest hrest => hn ?_, rfl⟩, ?_⟩
    · exact (looksMarked_iff hc m₃.unread).2 ⟨rest, by rw [← hrest, hi.1, ho.1]⟩
    refine Wire.Reader.bind_eq_ok.2 ⟨tx.inputs, m₂, (Wire.reads_counted reads_input _ _ _).2 ?_, ?_⟩
    · exact ⟨⟨hc.inputs, fun input hin => ⟨(hc.input input hin).unlocking, hbare input hin⟩⟩, hi⟩
    refine Wire.Reader.bind_eq_ok.2 ⟨_, m₃, hread, ?_⟩
    refine Wire.Reader.bind_eq_ok.2 ⟨tx.inputs, m₃, Wire.Reader.pure_eq_ok.2 ⟨rfl, rfl⟩, ?_⟩
    exact readEnd_eq_ok.2 ⟨⟨rfl, rfl, rfl⟩, by simp, hl⟩
  · rw [hwit] at hm hw
    refine Wire.Reader.bind_eq_ok.2 ⟨true, m₁, readMarker_true.2 hm, ?_⟩
    refine Wire.Reader.bind_eq_ok.2
      ⟨tx.inputs.map TxInput.bare, m₂, (Wire.reads_counted reads_input _ _ _).2 ⟨⟨?_, ?_⟩, ?_⟩, ?_⟩
    · simpa [Wire.Countable] using hc.inputs
    · intro _ hin
      obtain ⟨input, hmem, rfl⟩ := List.mem_map.1 hin
      exact ⟨(hc.input input hmem).unlocking, rfl⟩
    · rwa [← encode_map_bare] at hi
    refine Wire.Reader.bind_eq_ok.2 ⟨_, m₃, hread, ?_⟩
    refine Wire.Reader.bind_eq_ok.2 ⟨tx.inputs, m₄, (readWitnesses_eq_ok ?_).2 ?_, ?_⟩
    · intro _ hin
      obtain ⟨input, -, rfl⟩ := List.mem_map.1 hin
      rfl
    · exact ⟨tx.inputs, rfl, rfl,
        fun input hin => ⟨(hc.input input hin).witness, (hc.input input hin).item⟩, hw⟩
    · exact readEnd_eq_ok.2 ⟨⟨rfl, rfl, rfl⟩, fun _ => hwit, hl⟩

/-- **Reading a transaction accepts exactly what writing produces**, except where the inputs and
outputs look like a marker. -/
theorem reads_transaction :
    Reads Transaction.read (fun tx => tx.Countable ∧ ¬tx.LooksMarked) Transaction.encode :=
  fun _ _ _ => ⟨passes_of_read, fun h => read_of_passes h.1.1 h.1.2 h.2⟩

/-- Octets decode to the transaction that is read from them if it takes up all of them. -/
theorem decode_eq_ok_iff_read {bs : Bytes} {tx : Transaction} :
    decode bs = .ok tx ↔ ∃ c, Transaction.read (Cursor.start bs) = (.ok tx, c) ∧ c.unread = [] := by
  rw [decode]
  rcases Transaction.read (Cursor.start bs) with ⟨e | tx', c⟩
  · simp
  · by_cases hc : c.unread = [] <;> simp [hc, and_assoc]

/-- **What decodes to a transaction**: its encoding and nothing else, and that only if the
transaction can be written and does not look like a marker. -/
theorem decode_eq_ok_iff {bs : Bytes} {tx : Transaction} :
    decode bs = .ok tx ↔ (tx.Countable ∧ ¬tx.LooksMarked) ∧ tx.encode = bs := by
  simp only [decode_eq_ok_iff_read, reads_transaction _ _ _]
  constructor
  · rintro ⟨c, ⟨hc, hu, -⟩, hend⟩
    rw [hend, List.append_nil] at hu
    exact ⟨hc, hu.symm⟩
  · rintro ⟨hc, rfl⟩
    exact ⟨⟨tx.encode.reverse, []⟩, ⟨hc, by simp [Cursor.Passes, Cursor.start]⟩, rfl⟩

/-- **Writing and reading are inverse to one another**, but for the transactions that look like a
marker: those are written and never read back, every other one is, and whatever decodes is the only
thing that decodes to its transaction. -/
theorem encode_decode_inverse :
    (∀ tx : Transaction, tx.Countable → (decode tx.encode = .ok tx ↔ ¬tx.LooksMarked)) ∧
      (∀ (bs : Bytes) (tx : Transaction), decode bs = .ok tx → tx.encode = bs) ∧
      ∀ (bs bs' : Bytes) (tx : Transaction),
        decode bs = .ok tx → decode bs' = .ok tx → bs = bs' := by
  refine ⟨fun tx hc => ?_, fun bs tx h => (decode_eq_ok_iff.1 h).2, fun bs bs' tx h h' => ?_⟩
  · rw [decode_eq_ok_iff]
    exact ⟨fun h => h.1.2, fun hn => ⟨⟨hc, hn⟩, rfl⟩⟩
  · rw [← (decode_eq_ok_iff.1 h).2, ← (decode_eq_ok_iff.1 h').2]

/-- An input with a long unlocking script and a witness with an empty item is read back in a
transaction with a single output. -/
theorem encode_decode_inverse_longScript :
    let input : TxInput :=
      { source := { transaction := Octets.replicate 32 7, index := 1 }
        unlocking := List.replicate 300 0x51, sequence := finalSequence, witness := [[], [1]] }
    let tx : Transaction :=
      { version := 2, inputs := [input], outputs := [{ value := 5, locking := [0x51] }]
        lockTime := 0 }
    tx.Countable ∧ decode tx.encode = .ok tx ∧
      ∀ bs, decode bs = .ok tx → tx.encode = bs := by
  intro input tx
  have hc : tx.Countable := by
    refine ⟨by decide, by decide, fun input hin => ?_, fun output hout => ?_⟩
    · obtain rfl := List.mem_singleton.1 hin
      have hlong : Wire.Countable (List.replicate 300 (0x51 : UInt8)) := by
        rw [Wire.Countable, List.length_replicate]
        decide
      exact ⟨hlong, by decide, by decide⟩
    · obtain rfl := List.mem_singleton.1 hout
      decide
  have hn : ¬tx.LooksMarked := fun h => by cases h.1
  exact ⟨hc, (encode_decode_inverse.1 tx hc).2 hn, fun bs => encode_decode_inverse.2.1 bs tx⟩

end Transaction

end WitnessSigning
