import WitnessSigning.Document.Exchange
import WitnessSigning.Proofs.Key.Public
import WitnessSigning.Proofs.Script.Layout
import WitnessSigning.Proofs.Signature.Der
import WitnessSigning.Proofs.Text.Hex
import WitnessSigning.Proofs.Transaction.RoundTrip

/-!
# Documents lose nothing

A value is exchanged as the hexadecimal text of its octets, or as a record of such a text and a
number. Nothing is lost either way: the value is read back from its document, and what is read as
the value is read off a text that differs from the value's own in the case of its letters only
(`WitnessSigning.Lossless`, `WitnessSigning.KeepsMember`).

Both follow from one equivalence for each sort of value: a text is read as the value exactly
if its lower case form is the value's text. It comes from the texts of octets
(`WitnessSigning.Hex.decode_bind_eq_ok_iff`) and from what the octets are read as, a key, a
script, a signature or a transaction, each of which has one encoding only. The one exception
is a transaction that looks marked when it is written
(`WitnessSigning.Transaction.LooksMarked`), which is not read back.

All that is asked of the documents is that they store texts, numbers and members
(`WitnessSigning.LawfulDocumentType`). Numbers are different from texts in that other documents than
those written for a number may be read as it, so only what is written is said to be kept of them.
-/

namespace WitnessSigning

open Text (lower)
open DocumentType (demand member? number reading record text text? word32? word64?)

/-! ### Parts of documents -/

namespace DocumentType

variable {D α : Type} {a : α}

theorem demand_eq_ok_iff {found? : Option α} : demand found? = .ok a ↔ found? = some a := by
  cases found? <;> simp [demand]

/-- **What is read from a document** is read from the text that it is read as. -/
theorem reading_eq_ok_iff [DocumentType D] {read : Text → Except Error α} {d : D} :
    reading read d = .ok a ↔ ∃ t, text? d = some t ∧ read t = .ok a := by
  simp only [reading, Error.bind_eq_ok, demand_eq_ok_iff, Error.mapError_eq_ok]

end DocumentType

/-! ### Texts -/

section Texts

variable {text : Text}

theorem PublicKey.ofHex_eq_ok_iff {key : PublicKey} :
    ofHex text = .ok key ↔ text.map lower = key.toHex :=
  Hex.decode_bind_eq_ok_iff fun _ => Error.mapError_eq_ok.trans ofBytes_eq_ok_iff

theorem RedeemScript.ofHex_eq_ok_iff {script : RedeemScript} :
    ofHex text = .ok script ↔ text.map lower = script.toHex :=
  Hex.decode_bind_eq_ok_iff fun _ => parse_eq_ok_iff

/-- Strictness refuses the other encodings of a signature, so that its text is unique as well. -/
theorem Signature.ofHex?_eq_ok_some_iff {sig : Signature} :
    ofHex? text = .ok (some sig) ↔ text.map lower = sig.toHex :=
  Hex.decode_bind_eq_ok_iff fun _ =>
    (Except.ok.injEq _ _).to_iff.trans (ofDer?_eq_some_iff.trans eq_comm)

theorem Signature.ofStrictHex_eq_ok_iff {sig : Signature} :
    ofStrictHex text = .ok sig ↔ text.map lower = sig.toHex := by
  rw [← ofHex?_eq_ok_some_iff]
  constructor
  · intro h
    obtain ⟨found?, hread, h⟩ := Error.bind_eq_ok.1 h
    cases found? with
    | none => cases h
    | some found =>
      cases h
      exact hread
  · intro hread
    exact Error.bind_eq_ok.2 ⟨some sig, hread, rfl⟩

theorem Transaction.ofHex_eq_ok_iff {tx : Transaction} :
    ofHex text = .ok tx ↔ (tx.Countable ∧ ¬tx.LooksMarked) ∧ text.map lower = tx.toHex := by
  simp only [ofHex, Error.bind_eq_ok, Hex.decode_eq_ok_iff, decode_eq_ok_iff,
    exists_eq_right_right', and_comm, toHex]

/-- An identifier is shown from its last octet on, and turned back when it is read. -/
theorem TransactionId.ofHex_eq_ok_iff {id : TransactionId} :
    ofHex text = .ok id ↔ text.map lower = id.toHex := by
  refine Hex.decode_bind_eq_ok_iff fun bs => ?_
  rw [← Octets.ofList?_eq_some_iff]
  cases Octets.ofList? 32 bs with
  | none => exact ⟨(nomatch ·), (nomatch ·)⟩
  | some shown =>
    rw [Option.some.injEq]
    constructor
    · rintro ⟨⟩
      exact shown.reverse_reverse.symm
    · rintro rfl
      exact congrArg Except.ok id.reverse_reverse

end Texts

/-! ### What is kept -/

section Exchange

variable {D : Type} [DocumentType D] {α : Type}

/-- **A form that loses nothing**: a value is read back from its document, and whatever is read as a
value is a text whose lower case form is the value's document. -/
def Lossless (Whole : α → Prop) (write : α → D) (read : D → Except DocumentFault α) : Prop :=
  (∀ a, Whole a → read (write a) = .ok a) ∧
    ∀ d a, read d = .ok a → ∃ t, text? d = some t ∧ write a = text (t.map lower)

/-- **A member that is kept** in a record: whatever is read as a value has a text for this member,
whose lower case form is the member of the value's document. -/
def KeepsMember (name : String) (write : α → D) (read : D → Except DocumentFault α) : Prop :=
  ∀ d a, read d = .ok a → ∃ m t, member? d name = some m ∧ text? m = some t ∧
    member? (write a) name = some (text (t.map lower))

/-- **A member is kept** if it is read from the texts whose lower case form is written for it. -/
theorem keepsMember_of {name : String} {write : α → D} {read : D → Except DocumentFault α}
    {shown : α → Text}
    (hread : ∀ {d a}, read d = .ok a →
      ∃ m t, member? d name = some m ∧ text? m = some t ∧ t.map lower = shown a)
    (hwrite : ∀ a, member? (write a) name = some (text (shown a))) :
    KeepsMember name write read := by
  intro d a h
  obtain ⟨m, t, hm, ht, hshown⟩ := hread h
  exact ⟨m, t, hm, ht, hshown ▸ hwrite a⟩

variable [LawfulDocumentType D]

/-- **Texts lose nothing** if they are read as the octets that their lower case form is
written for. -/
theorem lossless_reading {Whole : α → Prop} {octets : α → Bytes} {read : Text → Except Error α}
    (h : ∀ {t a}, read t = .ok a ↔ Whole a ∧ t.map lower = Hex.encode (octets a)) :
    Lossless Whole (fun a => (text (Hex.encode (octets a)) : D)) (reading read) := by
  refine ⟨fun a ha => ?_, fun d a hd => ?_⟩
  · refine DocumentType.reading_eq_ok_iff.2 ⟨_, LawfulDocumentType.text?_text _, h.2 ⟨ha, ?_⟩⟩
    exact Hex.map_lower_encode _
  · obtain ⟨t, ht, hread⟩ := DocumentType.reading_eq_ok_iff.1 hd
    exact ⟨t, ht, congrArg text (h.1 hread).2.symm⟩

/-! ### Records -/

omit [LawfulDocumentType D] in
/-- **Which documents are read as an outpoint.** -/
theorem Outpoint.ofDocument_eq_ok_iff {d : D} {o : Outpoint} :
    ofDocument d = .ok o ↔
      (∃ m t, member? d "txid" = some m ∧ text? m = some t ∧ t.map lower = o.transaction.toHex) ∧
        ∃ m, member? d "index" = some m ∧ word32? m = some o.index := by
  simp only [ofDocument, Error.bind_eq_ok, DocumentType.demand_eq_ok_iff,
    DocumentType.reading_eq_ok_iff, TransactionId.ofHex_eq_ok_iff]
  constructor
  · rintro ⟨m, hm, id, ⟨t, ht, hid⟩, m', hm', index, hindex, ⟨⟩⟩
    exact ⟨⟨m, t, hm, ht, hid⟩, m', hm', hindex⟩
  · rintro ⟨⟨m, t, hm, ht, hid⟩, m', hm', hindex⟩
    exact ⟨m, hm, _, ⟨t, ht, hid⟩, m', hm', _, hindex, rfl⟩

omit [LawfulDocumentType D] in
/-- **Which documents are read as an output.** -/
theorem TxOutput.ofDocument_eq_ok_iff {d : D} {output : TxOutput} :
    ofDocument d = .ok output ↔
      (∃ m t, member? d "script_pubkey" = some m ∧ text? m = some t ∧
        t.map lower = Hex.encode output.locking) ∧
        ∃ m, member? d "value" = some m ∧ word64? m = some output.value := by
  simp only [ofDocument, Error.bind_eq_ok, DocumentType.demand_eq_ok_iff,
    DocumentType.reading_eq_ok_iff, Hex.decode_eq_ok_iff]
  constructor
  · rintro ⟨m', hm', value, hvalue, m, hm, locking, ⟨t, ht, hlocking⟩, ⟨⟩⟩
    exact ⟨⟨m, t, hm, ht, hlocking⟩, m', hm', hvalue⟩
  · rintro ⟨⟨m, t, hm, ht, hlocking⟩, m', hm', hvalue⟩
    exact ⟨m', hm', _, hvalue, m, hm, _, ⟨t, ht, hlocking⟩, rfl⟩

/-- The members of an outpoint's document. -/
theorem Outpoint.member?_toDocument (o : Outpoint) :
    member? (o.toDocument : D) "txid" = some (text o.transaction.toHex) ∧
      member? (o.toDocument : D) "index" = some (number o.index.toUInt64) := by
  have hnames : ["index", "txid"].Nodup := by simp
  exact ⟨LawfulDocumentType.member?_record _ "txid" hnames,
    LawfulDocumentType.member?_record _ "index" hnames⟩

/-- The members of an output's document. -/
theorem TxOutput.member?_toDocument (output : TxOutput) :
    member? (output.toDocument : D) "script_pubkey" = some (text (Hex.encode output.locking)) ∧
      member? (output.toDocument : D) "value" = some (number output.value) := by
  have hnames : ["script_pubkey", "value"].Nodup := by simp
  exact ⟨LawfulDocumentType.member?_record _ "script_pubkey" hnames,
    LawfulDocumentType.member?_record _ "value" hnames⟩

theorem Outpoint.ofDocument_toDocument (o : Outpoint) :
    ofDocument (o.toDocument : D) = .ok o := by
  obtain ⟨hid, hindex⟩ := o.member?_toDocument (D := D)
  refine ofDocument_eq_ok_iff.2 ⟨⟨_, _, hid, LawfulDocumentType.text?_text _, ?_⟩, _, hindex, ?_⟩
  · exact Hex.map_lower_encode _
  · exact LawfulDocumentType.word32?_number _

theorem TxOutput.ofDocument_toDocument (output : TxOutput) :
    ofDocument (output.toDocument : D) = .ok output := by
  obtain ⟨hlocking, hvalue⟩ := output.member?_toDocument (D := D)
  refine ofDocument_eq_ok_iff.2
    ⟨⟨_, _, hlocking, LawfulDocumentType.text?_text _, ?_⟩, _, hvalue, ?_⟩
  · exact Hex.map_lower_encode _
  · exact LawfulDocumentType.word64?_number _

/-- The identifier of an outpoint is kept, whatever its index is read from. -/
theorem Outpoint.keepsMember_txid :
    KeepsMember "txid" (toDocument : Outpoint → D) ofDocument :=
  keepsMember_of (fun h => (ofDocument_eq_ok_iff.1 h).1) fun o => o.member?_toDocument.1

/-- The locking script of an output is kept, whatever its value is read from. -/
theorem TxOutput.keepsMember_script :
    KeepsMember "script_pubkey" (toDocument : TxOutput → D) ofDocument :=
  keepsMember_of (fun h => (ofDocument_eq_ok_iff.1 h).1) fun output => output.member?_toDocument.1

/-- **Nothing is lost in documents**, of whatever type they are. Keys, redeem scripts, signatures
and transactions are read back from their documents, and what is read as one of them is written
again in lower case. Outpoints and outputs are read back as well, and of whatever is read as one
of them the identifier and the locking script come back in lower case. Transactions are those that
fit the length prefixes, and none that looks marked. -/
theorem exchange_lossless :
    Lossless (fun _ => True) (PublicKey.toDocument : PublicKey → D) PublicKey.ofDocument ∧
      Lossless (fun _ => True) (RedeemScript.toDocument : RedeemScript → D)
        RedeemScript.ofDocument ∧
      Lossless (fun _ => True) (Signature.toDocument : Signature → D) Signature.ofDocument ∧
      Lossless (fun tx => tx.Countable ∧ ¬tx.LooksMarked) (Transaction.toDocument : Transaction → D)
        Transaction.ofDocument ∧
      (∀ o : Outpoint, Outpoint.ofDocument (o.toDocument : D) = .ok o) ∧
      KeepsMember "txid" (Outpoint.toDocument : Outpoint → D) Outpoint.ofDocument ∧
      (∀ output : TxOutput, TxOutput.ofDocument (output.toDocument : D) = .ok output) ∧
      KeepsMember "script_pubkey" (TxOutput.toDocument : TxOutput → D) TxOutput.ofDocument := by
  refine ⟨?_, ?_, ?_, ?_, Outpoint.ofDocument_toDocument, Outpoint.keepsMember_txid,
    TxOutput.ofDocument_toDocument, TxOutput.keepsMember_script⟩
  · exact lossless_reading (PublicKey.ofHex_eq_ok_iff.trans (and_iff_right trivial).symm)
  · exact lossless_reading (RedeemScript.ofHex_eq_ok_iff.trans (and_iff_right trivial).symm)
  · exact lossless_reading (Signature.ofStrictHex_eq_ok_iff.trans (and_iff_right trivial).symm)
  · exact lossless_reading Transaction.ofHex_eq_ok_iff

end Exchange

/-- Texts in upper case: a signature, an identifier whose record has its members in another order,
and a locking script. The index of the identifier's record is read modulo the size of a word, and
the value of the script's record is a number below zero; neither is written again as it was. A
transaction with a witness is read back as well. -/
theorem exchange_lossless_upperCase :
    let shouted := Text.ofString "3007020200AB02010F"
    let sig : Signature := { r := 0xab, s := 0x0f }
    let source : Document :=
      .record [("txid", .text (List.replicate 64 65)), ("index", .number 4294967303)]
    let outpoint : Outpoint := { transaction := Octets.replicate 32 0xaa, index := 7 }
    let paid : Document := .record [("value", .signed (-1)), ("script_pubkey", .text [53, 65])]
    let output : TxOutput := { value := 0xffffffffffffffff, locking := [0x5a] }
    let input : TxInput :=
      { source := outpoint, unlocking := [], sequence := finalSequence, witness := [[], [1]] }
    let tx : Transaction := { version := 2, inputs := [input], outputs := [output], lockTime := 0 }
    (Signature.ofDocument (.text shouted : Document) = .ok sig ∧
        (sig.toDocument : Document) = .text (shouted.map lower)) ∧
      (Outpoint.ofDocument source = .ok outpoint ∧
        (outpoint.toDocument : Document).member? "txid" = some (.text (List.replicate 64 97))) ∧
      (TxOutput.ofDocument paid = .ok output ∧
        (output.toDocument : Document).member? "script_pubkey" = some (.text [53, 97])) ∧
      (tx.Countable ∧ ¬tx.LooksMarked) ∧
        Transaction.ofDocument (tx.toDocument : Document) = .ok tx := by
  intro shouted sig source outpoint paid output input tx
  obtain ⟨-, -, ⟨-, hsig⟩, ⟨htx, -⟩, -, houtpoint, -, houtput⟩ := exchange_lossless (D := Document)
  have hread : Signature.ofDocument (.text shouted : Document) = .ok sig := by decide +kernel
  have hsource : Outpoint.ofDocument source = .ok outpoint := by decide +kernel
  have hpaid : TxOutput.ofDocument paid = .ok output := by decide +kernel
  have hwhole : tx.Countable ∧ ¬tx.LooksMarked := by
    refine ⟨⟨by decide, by decide, ?_, ?_⟩, fun h => by cases h.1⟩
    · intro input hin
      obtain rfl := List.mem_singleton.1 hin
      exact ⟨by decide, by decide, by decide⟩
    · intro output hout
      obtain rfl := List.mem_singleton.1 hout
      decide
  refine ⟨⟨hread, ?_⟩, ⟨hsource, ?_⟩, ⟨hpaid, ?_⟩, hwhole, htx tx hwhole⟩
  · obtain ⟨_, ⟨⟩, hwrite⟩ := hsig _ sig hread
    exact hwrite
  · obtain ⟨_, _, ⟨⟩, ⟨⟩, hwrite⟩ := houtpoint source outpoint hsource
    exact hwrite
  · obtain ⟨_, _, ⟨⟩, ⟨⟩, hwrite⟩ := houtput paid output hpaid
    exact hwrite

end WitnessSigning
