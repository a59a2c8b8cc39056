import WitnessSigning.Octets

/-!
# Documents

Values of this library are exchanged as documents: texts, numbers, and records of named
members. What holds them is for others to say. Here a type of documents is known by what can be
made of texts, numbers and members and by what can be read off it
(`WitnessSigning.DocumentType`); it is lawful if it stores them unchanged
(`WitnessSigning.LawfulDocumentType`). Nothing is laid down for a document that was made in
another way, such as a number that fits no word or a record that names a member twice.

One such type is spelled out (`WitnessSigning.Document`). It is printed in JSON,
each member on a line of its own.
-/

namespace WitnessSigning

/-! ### Types of documents -/

/-- **A type of documents.** A number is read as a word of the width that is asked for. -/
class DocumentType (D : Type) where
  /-- A text as a document. -/
  text : Text → D
  /-- A number as a document. -/
  number : UInt64 → D
  /-- Named members as a document. -/
  record : List (String × D) → D
  /-- The text that a document is read as. -/
  text? : D → Option Text
  /-- The word of 32 bits that a document is read as. -/
  word32? : D → Option UInt32
  /-- The word of 64 bits that a document is read as. -/
  word64? : D → Option UInt64
  /-- The member of a document by its name. -/
  member? : D → String → Option D

/-- **Documents that store what they are made of**: texts, numbers, and members by their names. -/
class LawfulDocumentType (D : Type) [DocumentType D] : Prop where
  /-- A text is read back. -/
  text?_text (t : Text) : DocumentType.text? (DocumentType.text t : D) = some t
  /-- A number of 32 bits is read back as such. -/
  word32?_number (n : UInt32) :
    DocumentType.word32? (DocumentType.number n.toUInt64 : D) = some n
  /-- A number is read back. -/
  word64?_number (n : UInt64) : DocumentType.word64? (DocumentType.number n : D) = some n
  /-- Members with different names are found. -/
  member?_record (members : List (String × D)) (name : String) :
    (members.map Prod.fst).Nodup →
      DocumentType.member? (DocumentType.record members) name = members.lookup name

/-! ### A type of documents -/

/-- **A document.** Numbers are words of 64 bits, those below zero apart; there are no fractions. -/
inductive Document where
  | null
  | truth (b : Bool)
  | number (n : UInt64)
  /-- A number that may be below zero. -/
  | signed (n : Int64)
  | text (t : Text)
  | list (items : List Document)
  /-- Named members, in the order in which they are printed. -/
  | record (members : List (String × Document))

namespace Document

/-- The text of a document. -/
def text? : Document → Option Text
  | text t => some t
  | _ => none

/-- A document as a word of 32 bits: the low bits of a number, and one or zero for a truth value. -/
def word32? : Document → Option UInt32
  | number n => some n.toUInt32
  | signed n => some n.toUInt64.toUInt32
  | truth b => some (if b then 1 else 0)
  | _ => none

/-- A document as a word of 64 bits: the bits of a number. -/
def word64? : Document → Option UInt64
  | number n => some n
  | signed n => some n.toUInt64
  | _ => none

/-- The member of a record by its name. -/
def member? (d : Document) (name : String) : Option Document :=
  match d with
  | record members => members.lookup name
  | _ => none

instance : DocumentType Document where
  text := text
  number := number
  record := record
  text? := text?
  word32? := word32?
  word64? := word64?
  member? := member?

instance : LawfulDocumentType Document where
  text?_text _ := rfl
  word32?_number n := congrArg some (UInt32.toUInt32_toUInt64 n)
  word64?_number _ := rfl
  member?_record _ _ _ := rfl

/-! ### Printing -/

/-- The start of a line at some depth. -/
def margin (depth : Nat) : String :=
  String.ofList (List.replicate (4 * depth) ' ')

/-- A character of a quoted text. -/
def quoteChar (c : Char) : String :=
  if c = '"' then "\\\""
  else if c = '\\' then "\\\\"
  else if c.toNat < 32 then
    "\\u00" ++ String.ofList [Nat.digitChar (c.toNat / 16), Nat.digitChar (c.toNat % 16)]
  else String.singleton c

/-- A text between quotation marks. -/
def quote (s : String) : String :=
  "\"" ++ s.toList.foldl (fun acc c => acc ++ quoteChar c) "" ++ "\""

mutual

/-- **Prints a document** that starts at some depth. -/
def render (depth : Nat) : Document → String
  | null => "null"
  | truth b => if b then "true" else "false"
  | number n => toString n.toNat
  | signed n => toString n.toInt
  | text t => quote (Text.toString t)
  | list [] => "[]"
  | list (d :: ds) =>
    "[\n" ++ margin (depth + 1) ++ render (depth + 1) d ++ renderItems (depth + 1) ds ++
      "\n" ++ margin depth ++ "]"
  | record [] => "\x7b\x7d"
  | record ((name, d) :: ms) =>
    "\x7b\n" ++ margin (depth + 1) ++ quote name ++ ": " ++ render (depth + 1) d ++
      renderMembers (depth + 1) ms ++ "\n" ++ margin depth ++ "\x7d"

/-- Prints further items of a list. -/
def renderItems (depth : Nat) : List Document → String
  | [] => ""
  | d :: ds => ",\n" ++ margin depth ++ render depth d ++ renderItems depth ds

/-- Prints further members of a record. -/
def renderMembers (depth : Nat) : List (String × Document) → String
  | [] => ""
  | (name, d) :: ms =>
    ",\n" ++ margin depth ++ quote name ++ ": " ++ render depth d ++ renderMembers depth ms

end

end Document

end WitnessSigning
