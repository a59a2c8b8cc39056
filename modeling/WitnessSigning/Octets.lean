/-!
# Octets

Everything this library reads or writes is a list of octets: keys, scripts, wire data, and texts as
well, since a text is taken as the octets of its encoding and an error may have to name one of them.
Values of a known width (digests, key encodings, transaction ids) carry that width in their type,
as `WitnessSigning.Octets`.
-/

namespace WitnessSigning

/-- A list of octets of any length. -/
abbrev Bytes := List UInt8

/-- A text as the octets of its encoding. The formats of this library write ASCII only, but they are
asked to read anything. -/
abbrev Text := List UInt8

/-- The octets of a text given as characters. -/
def Text.ofString (s : String) : Text :=
  s.toUTF8.toList

/-- A text with one character for each octet. -/
def Text.toString (t : Text) : String :=
  String.ofList (t.map fun b => Char.ofNat b.toNat)

/-! ### Letters -/

namespace Text

/-- A lower case letter. -/
def isLower (c : UInt8) : Bool :=
  97 ≤ c && c ≤ 122

/-- An upper case letter. -/
def isUpper (c : UInt8) : Bool :=
  65 ≤ c && c ≤ 90

/-- The lower case form of a letter; other octets stay. -/
def lower (c : UInt8) : UInt8 :=
  if isUpper c then c + 32 else c

theorem toNat_lower (c : UInt8) :
    (lower c).toNat = if 65 ≤ c.toNat ∧ c.toNat ≤ 90 then c.toNat + 32 else c.toNat := by
  simp only [lower, isUpper, Bool.and_eq_true, decide_eq_true_eq, UInt8.le_iff_toNat_le,
    UInt8.reduceToNat]
  split
  · rw [UInt8.toNat_add]
    simp only [UInt8.reduceToNat]
    omega
  · rfl

theorem lower_of_not_upper {c : UInt8} (h : isUpper c = false) : lower c = c := by
  rw [lower, h, if_neg Bool.false_ne_true]

/-- A text without upper case letters is its own lower case form. -/
theorem map_lower_eq_self {text : Text} (h : ∀ c ∈ text, isUpper c = false) :
    text.map lower = text := by
  rw [List.map_congr_left fun c hc => lower_of_not_upper (h c hc), List.map_id']

end Text

/-! ### Octets of a known width -/

/-- **Octets of a known width**: a list together with its length. -/
structure Octets (n : Nat) where
  /-- The octets in order. -/
  toList : Bytes
  length_toList : toList.length = n
  deriving DecidableEq

namespace Octets

variable {n : Nat}

/-- Octets of one width are equal as soon as their lists are. -/
theorem ext_toList {a b : Octets n} (h : a.toList = b.toList) : a = b := by
  cases a; cases b; cases h; rfl

/-- The list as octets of width `n`, if it has that many. -/
def ofList? (n : Nat) (bs : Bytes) : Option (Octets n) :=
  if h : bs.length = n then some ⟨bs, h⟩ else none

theorem ofList?_toList (a : Octets n) : ofList? n a.toList = some a := by
  simp [ofList?, a.length_toList]

theorem ofList?_eq_some_iff {bs : Bytes} {a : Octets n} :
    ofList? n bs = some a ↔ a.toList = bs := by
  constructor
  · intro h
    unfold ofList? at h
    split at h
    · cases h; rfl
    · cases h
  · rintro rfl
    exact ofList?_toList a

/-- The same octet all through. -/
def replicate (n : Nat) (b : UInt8) : Octets n :=
  ⟨List.replicate n b, by simp⟩

/-- The octets from last to first. -/
def reverse (a : Octets n) : Octets n :=
  ⟨a.toList.reverse, by simp [a.length_toList]⟩

theorem toList_reverse (a : Octets n) : a.reverse.toList = a.toList.reverse := rfl

theorem reverse_reverse (a : Octets n) : a.reverse.reverse = a :=
  ext_toList (by simp [toList_reverse])

end Octets

/-! ### Lists of items -/

/-- **Reading item by item**, where an item that is read is the one written for its value. -/
theorem mapM_eq_some_iff {α β : Type} {read? : α → Option β} {write : β → α} {P : β → Prop}
    (h : ∀ {a : α} {b : β}, read? a = some b ↔ P b ∧ a = write b) {as : List α} {bs : List β} :
    as.mapM read? = some bs ↔ (∀ b ∈ bs, P b) ∧ as = bs.map write := by
  induction as generalizing bs with
  | nil => cases bs <;> simp
  | cons a as ih =>
    simp only [List.mapM_cons, Option.bind_eq_bind, Option.bind_eq_some_iff, Option.pure_def,
      Option.some.injEq, h, ih]
    constructor
    · rintro ⟨b, ⟨hb, rfl⟩, bs, ⟨hbs, rfl⟩, rfl⟩
      exact ⟨List.forall_mem_cons.2 ⟨hb, hbs⟩, rfl⟩
    · rintro ⟨hbs, has⟩
      cases bs with
      | nil => cases has
      | cons b bs =>
        obtain ⟨rfl, rfl⟩ := List.cons.inj has
        obtain ⟨hb, hbs⟩ := List.forall_mem_cons.1 hbs
        exact ⟨b, ⟨hb, rfl⟩, bs, ⟨hbs, rfl⟩, rfl⟩

end WitnessSigning
