import WitnessSigning.Proofs.Transaction.RoundTrip
import WitnessSigning.Proofs.Wire.Local

/-!
# Where a transaction ends

A transaction shows by itself where it ends: octets that decode to one do not with others behind
them, and no part of them that stops earlier does (`WitnessSigning.Transaction.decode_prefixFree`).
The first is told from what is left over and the second from what is lacking, wherever the cut is.

Both rest on one fact, that reading a transaction is local
(`WitnessSigning.Transaction.local_read`): cut octets that were refused for another reason than that
some are lacking would be refused when they are whole. Field by field this is a composition of local
readers. The marker is the one place that is looked at before it is passed, and there the octets
that decide about it are needed anyway (`WitnessSigning.Transaction.readBehindMarker_of_short`).
-/

namespace WitnessSigning

open Wire (Cursor Lacking Local)

/-! ### Parts of a transaction -/

section Parts

theorem local_outpoint : Local Outpoint.read :=
  (Local.octets 32).bind fun _ => Local.u32.bind fun _ => .pure _

theorem local_input : Local TxInput.read :=
  local_outpoint.bind fun _ => Local.sized.bind fun _ => Local.u32.bind fun _ => .pure _

theorem local_output : Local TxOutput.read :=
  Local.u64.bind fun _ => Local.sized.bind fun _ => .pure _

theorem local_readWitnesses (bare done : List TxInput) : Local (readWitnesses bare done) := by
  induction bare generalizing done with
  | nil => exact .pure done.reverse
  | cons input bare ih =>
    rw [readWitnesses_cons]
    exact Local.sized.counted.bind fun witness => ih ({ input with witness } :: done)

end Parts

namespace Transaction

theorem local_readEnd (version : UInt32) (marked : Bool) (outputs : List TxOutput)
    (inputs : List TxInput) : Local (readEnd version marked outputs inputs) :=
  .ite (.fail rfl) (Local.u32.bind fun _ => .pure _)

/-! ### The marker -/

/-- What comes behind the marker, or behind the version if there is none. -/
def readBehindMarker (version : UInt32) (marked : Bool) : Wire.Reader Transaction := do
  let bare ← Wire.Reader.counted TxInput.read
  let outputs ← Wire.Reader.counted TxOutput.read
  let inputs ← if marked then readWitnesses bare [] else pure bare
  readEnd version marked outputs inputs

theorem read_eq_bind :
    read = Wire.Reader.u32 >>= fun version => readMarker >>= readBehindMarker version :=
  rfl

theorem local_readBehindMarker (version : UInt32) (marked : Bool) :
    Local (readBehindMarker version marked) := by
  refine local_input.counted.bind fun bare => local_output.counted.bind fun outputs => ?_
  have hend := local_readEnd version marked outputs
  exact .ite ((local_readWitnesses bare []).bind hend) ((Local.pure bare).bind hend)

variable {c c' : Cursor}

theorem readMarker_ne_error {e : Error} : readMarker c ≠ (.error e, c') := by
  intro h
  rw [readMarker] at h
  split at h <;> cases h

/-- Two octets decide about the marker, and one does if it is not the first one of it. -/
theorem readMarker_extend {marked : Bool} (h : readMarker c = (.ok marked, c'))
    (hnil : c.unread ≠ []) (hzero : c.unread ≠ [0]) (xs : Bytes) :
    readMarker (c.extend xs) = (.ok marked, c'.extend xs) := by
  cases marked with
  | true => exact readMarker_true.2 ((readMarker_true.1 h).extend xs)
  | false =>
    obtain ⟨hno, rfl⟩ := readMarker_false.1 h
    refine readMarker_false.2 ⟨fun rest hrest => ?_, rfl⟩
    rw [Cursor.unread_extend] at hrest
    rcases hu : c.unread with _ | ⟨a, _ | ⟨b, t⟩⟩
    · exact hnil hu
    · -- a single octet that is not the first one of the marker
      rw [hu, List.singleton_append, List.cons.injEq] at hrest
      exact hzero (by rw [hu, hrest.1])
    · rw [hu, List.cons_append, List.cons_append, List.cons.injEq, List.cons.injEq] at hrest
      obtain ⟨rfl, rfl, -⟩ := hrest
      exact hno t hu

/-- **Octets that do not decide about the marker are too few for a transaction**: the count of the
inputs is missing, or the one of the outputs behind a count of no inputs. -/
theorem readBehindMarker_of_short (version : UInt32) (marked : Bool)
    (h : c.unread = [] ∨ c.unread = [0]) :
    Lacking (readBehindMarker version marked c).1 := by
  rcases h with h | h
  · rw [readBehindMarker, Wire.Reader.bind_of_error (Wire.Reader.counted_of_unread_eq_nil h)]
    exact Wire.lacking_error.2 (.inl rfl)
  · have hend : (c.advance 1).unread = [] := by rw [Cursor.advance, h]; rfl
    rw [readBehindMarker, Wire.Reader.bind_of_ok (Wire.Reader.counted_of_unread_eq_zero h),
      Wire.Reader.bind_of_error (Wire.Reader.counted_of_unread_eq_nil hend)]
    exact Wire.lacking_error.2 (.inl rfl)

/-- **Reading behind the version**: looking for the marker is not local, but looking for it and
reading on is. -/
theorem local_readMarker_bind (version : UInt32) :
    Local (readMarker >>= readBehindMarker version) where
  kind h := by
    obtain h | ⟨marked, m, -, h⟩ := Wire.Reader.bind_eq_error.1 h
    · exact absurd h readMarker_ne_error
    · exact (local_readBehindMarker version marked).kind h
  settled := by
    intro c c' o h ho xs
    rcases hm : readMarker c with ⟨e | marked, m⟩
    · exact absurd hm readMarker_ne_error
    rw [Wire.Reader.bind_of_ok hm] at h
    have hbehind := (local_readBehindMarker version marked).settled h ho xs
    by_cases hshort : c.unread = [] ∨ c.unread = [0]
    · -- nothing was passed as a marker, so the reads behind it lack octets
      obtain rfl : c = m := by
        cases marked with
        | true =>
          have hp := (readMarker_true.1 hm).1
          rcases hshort with hu | hu <;> simp [hu, marker] at hp
        | false => exact (readMarker_false.1 hm).2
      refine absurd ?_ ho
      have hlack := readBehindMarker_of_short version marked hshort
      rwa [h] at hlack
    · obtain ⟨hnil, hzero⟩ := not_or.1 hshort
      rw [Wire.Reader.bind_of_ok (readMarker_extend hm hnil hzero xs), hbehind]

/-- **Reading a transaction is local.** -/
theorem local_read : Local Transaction.read := by
  rw [read_eq_bind]
  exact Local.u32.bind local_readMarker_bind

/-! ### Whole transactions -/

variable {bs xs : Bytes} {tx : Transaction} {e : Error}

/-- **Why octets do not decode**: reading failed, or it left octets over. -/
theorem decode_eq_error_iff_read :
    decode bs = .error e ↔ (∃ c, Transaction.read (Cursor.start bs) = (.error e, c)) ∨
      .trailingOctets = e ∧
        ∃ tx c, Transaction.read (Cursor.start bs) = (.ok tx, c) ∧ c.unread ≠ [] := by
  rw [decode]
  rcases Transaction.read (Cursor.start bs) with ⟨e | tx', c⟩
  · simp
  · by_cases hc : c.unread = [] <;> simp [hc, and_assoc]

theorem kind_of_decode_eq_error (h : decode bs = .error e) : e.kind = .decodeError := by
  obtain ⟨c, h⟩ | ⟨rfl, -⟩ := decode_eq_error_iff_read.1 h
  · exact local_read.kind h
  · rfl

/-- Octets behind a transaction are left over. -/
theorem decode_append (h : decode bs = .ok tx) (hxs : xs ≠ []) :
    decode (bs ++ xs) = .error .trailingOctets := by
  obtain ⟨c, hr, hc⟩ := decode_eq_ok_iff_read.1 h
  refine decode_eq_error_iff_read.2 (.inr ⟨rfl, tx, c.extend xs, ?_, ?_⟩)
  · exact local_read.settled hr Wire.not_lacking_ok xs
  · rwa [Cursor.unread_extend, hc, List.nil_append]

/-- **A transaction that was cut off lacks octets.** Any other outcome would be that of the whole
octets, and would leave those behind the cut over. -/
theorem lacksOctets_of_decode_append (h : decode (bs ++ xs) = .ok tx) (hxs : xs ≠ []) :
    ∃ e, decode bs = .error e ∧ e.LacksOctets := by
  obtain ⟨c', hr', hc'⟩ := decode_eq_ok_iff_read.1 h
  rcases hr : Transaction.read (Cursor.start bs) with ⟨o, c⟩
  by_cases ho : Lacking o
  · obtain ⟨e, rfl, he⟩ := ho
    exact ⟨e, decode_eq_error_iff_read.2 (.inl ⟨c, hr⟩), he⟩
  · have hext := local_read.settled hr ho xs
    rw [Cursor.start_extend, hr'] at hext
    obtain ⟨-, rfl⟩ := Prod.mk.inj hext
    exact absurd (List.append_eq_nil_iff.1 hc').2 hxs

/-- **Transactions are prefix-free.** Where octets decode to a transaction, octets behind them are
left over, and a part of them that stops earlier lacks octets, so that neither decodes; of two
lists of octets that decode, none starts the other. Whatever the octets are and whatever counts and
lengths they declare, there is a transaction or a failure to decode. -/
theorem decode_prefixFree :
    (∀ (bs : Bytes) (tx : Transaction), decode bs = .ok tx →
      (∀ xs, xs ≠ [] → decode (bs ++ xs) = .error .trailingOctets) ∧
        ∀ part, part <+: bs → part ≠ bs → ∃ e, decode part = .error e ∧ e.LacksOctets) ∧
      (∀ (bs bs' : Bytes) (tx tx' : Transaction), decode bs = .ok tx → decode bs' = .ok tx' →
        bs <+: bs' → bs = bs') ∧
      ∀ bs : Bytes, (∃ tx, decode bs = .ok tx) ∨
        ∃ e, decode bs = .error e ∧ e.kind = .decodeError := by
  refine ⟨fun bs tx h => ⟨fun xs hxs => decode_append h hxs, ?_⟩, ?_, fun bs => ?_⟩
  · rintro part ⟨xs, rfl⟩ hne
    refine lacksOctets_of_decode_append h fun hxs => hne ?_
    rw [hxs, List.append_nil]
  · rintro bs _ tx tx' h h' ⟨xs, rfl⟩
    rcases Decidable.em (xs = []) with rfl | hxs
    · rw [List.append_nil]
    · rw [decode_append h hxs] at h'
      cases h'
  · rcases h : decode bs with e | tx
    · exact .inr ⟨e, rfl, kind_of_decode_eq_error h⟩
    · exact .inl ⟨tx, rfl⟩

/-- A transaction with a witness, with an octet behind it and cut off inside its marker. -/
theorem decode_prefixFree_marked :
    let tx : Transaction :=
      { version := 2
        inputs := [{ source := { transaction := Octets.replicate 32 7, index := 1 }
                     unlocking := [], sequence := finalSequence, witness := [[], [1]] }]
        outputs := [{ value := 5, locking := [0x51] }]
        lockTime := 0 }
    decode tx.encode = .ok tx ∧
      decode (tx.encode ++ [0]) = .error .trailingOctets ∧
      (∃ e, decode (tx.encode.take 5) = .error e ∧ e.LacksOctets) ∧
      ∀ bs tx', decode bs = .ok tx' → tx.encode <+: bs → tx.encode = bs := by
  intro tx
  have h : decode tx.encode = .ok tx := by
    subst tx
    rfl
  obtain ⟨hends, hunique, -⟩ := decode_prefixFree
  obtain ⟨hbehind, hcut⟩ := hends tx.encode tx h
  refine ⟨h, hbehind [0] (List.cons_ne_nil 0 []), ?_, fun bs tx' => hunique _ bs tx tx' h⟩
  exact hcut _ (List.take_prefix 5 tx.encode) (by decide)

/-- A count of more inputs than any octets could hold is no more than a lack of octets. -/
example : decode ([2, 0, 0, 0] ++ List.replicate 9 0xff) = .error .endOfData := by rfl

end Transaction

end WitnessSigning
