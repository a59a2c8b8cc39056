import Mathlib.Data.List.Duplicate
import WitnessSigning.Proofs.Key.Public
import WitnessSigning.Proofs.Wire.Reading
import WitnessSigning.Script.Parse

/-!
# The layout of redeem scripts

Building a redeem script checks keys and threshold and lays them out; reading one follows the layout
octet by octet and checks keys and threshold at the end. Both fix the same language: octets are read
as a script exactly if they are the octets of that script
(`WitnessSigning.RedeemScript.parse_eq_ok_iff`), and keys and a threshold that are laid out without
any check are read with the outcome of building from them, be it the script or the failure
(`WitnessSigning.RedeemScript.parse_layout`).

Whatever else can go wrong is a break in the layout: how many octets are left is asked before each
read, so no read runs out of them (`WitnessSigning.RedeemScript.kind_of_parse_eq_error`).
-/

namespace WitnessSigning.RedeemScript

open Wire

/-! ### Building -/

section Build

variable {keys : List PublicKey} {threshold : Nat}

/-- **What is built** has the keys and the threshold that it is built from. -/
theorem build_eq_ok_iff {script : RedeemScript} :
    build keys threshold = .ok script ↔ script.keys = keys ∧ script.threshold = threshold := by
  constructor
  · intro h
    rw [build] at h
    split at h
    · split at h
      · split at h
        · cases h
          exact ⟨rfl, rfl⟩
        · cases h
      · cases h
    · cases h
  · rintro ⟨rfl, rfl⟩
    rw [build, dif_pos script.length_le, dif_pos ⟨script.one_le_threshold, script.threshold_le⟩]
    split
    · rfl
    · next key h =>
      rw [(firstRepeated?_eq_none_iff _).2 script.nodup] at h
      cases h

theorem exists_build_iff : (∃ script, build keys threshold = .ok script) ↔
    1 ≤ threshold ∧ threshold ≤ keys.length ∧ keys.length ≤ maxKeys ∧ keys.Nodup := by
  constructor
  · rintro ⟨script, h⟩
    obtain ⟨rfl, rfl⟩ := build_eq_ok_iff.1 h
    exact ⟨script.one_le_threshold, script.threshold_le, script.length_le, script.nodup⟩
  · rintro ⟨hpos, hle, hn, hnodup⟩
    exact ⟨⟨keys, threshold, hpos, hle, hn, hnodup⟩, build_eq_ok_iff.2 ⟨rfl, rfl⟩⟩

/-- The key that is reported as repeated does occur twice. -/
theorem duplicate_of_firstRepeated? {key : PublicKey} (h : firstRepeated? keys = some key) :
    List.Duplicate key keys := by
  induction keys with
  | nil => cases h
  | cons first rest ih =>
    rw [firstRepeated?] at h
    split at h
    · next hmem =>
      cases h
      exact .cons_mem hmem
    · exact .cons_duplicate (ih h)

/-- **Why nothing is built**, in the order of the checks: too many keys, a threshold that they
cannot reach or none at all, a key that occurs twice. -/
theorem build_eq_error {e : Error} (h : build keys threshold = .error e) :
    (maxKeys < keys.length ∧ e = .tooManyKeys keys.length) ∨
      (keys.length ≤ maxKeys ∧ ¬(1 ≤ threshold ∧ threshold ≤ keys.length) ∧
        e = .threshold threshold keys.length) ∨
      (keys.length ≤ maxKeys ∧ (1 ≤ threshold ∧ threshold ≤ keys.length) ∧
        ∃ key, List.Duplicate key keys ∧ e = .duplicateKey key.bytes) := by
  rw [build] at h
  split at h
  · next hn =>
    split at h
    · next hm =>
      split at h
      · cases h
      · next key hkey =>
        cases h
        exact .inr (.inr ⟨hn, hm, key, duplicate_of_firstRepeated? hkey, rfl⟩)
    · next hm =>
      cases h
      exact .inr (.inl ⟨hn, hm, rfl⟩)
  · next hn =>
    cases h
    exact .inl ⟨Nat.lt_of_not_le hn, rfl⟩

end Build

/-! ### Reading the keys -/

section Keys

variable {c c' : Cursor}

/-- The octet behind which a passage starts is the one that is unread. -/
theorem eq_of_passes_cons {b b' : UInt8} {bs : Bytes} (h : c.Passes (b :: bs) c')
    (hb : c.unread.head? = some b') : b = b' := by
  rw [h.1] at hb
  exact Option.some.inj hb

/-- Behind an octet that was passed there are fewer of them. -/
theorem length_le_of_passes_cons {b : UInt8} {bs : Bytes} {n : Nat} (h : c.Passes (b :: bs) c')
    (hn : c.unread.length ≤ n + 1) : c'.unread.length ≤ n := by
  rw [h.1, List.cons_append, List.length_cons, List.length_append] at hn
  omega

/-- **A key** is read from the octet that pushes it and its own octets. -/
theorem readKey_eq_ok {key : PublicKey} (h : c.unread.head? = some Opcode.pushKey) :
    readKey c = (.ok key, c') ↔ c.Passes (Opcode.pushKey :: key.bytes) c' := by
  rw [readKey]
  constructor
  · intro hread
    obtain ⟨b, m, hb, hread⟩ := Reader.bind_eq_ok.1 hread
    obtain ⟨-, hb⟩ := (reads_u8 _ _ _).1 hb
    obtain rfl := eq_of_passes_cons hb h
    obtain ⟨rest, _, ⟨⟩, hread⟩ := Reader.bind_eq_ok.1 hread
    split at hread
    · exact absurd hread Reader.fail_ne_ok
    · obtain ⟨bs, m', htake, hread⟩ := Reader.bind_eq_ok.1 hread
      obtain ⟨-, hp⟩ := takeOr_eq_ok.1 htake
      cases hkey : PublicKey.ofBytes bs with
      | ok key' =>
        rw [hkey] at hread
        obtain ⟨rfl, rfl⟩ := Reader.pure_eq_ok.1 hread
        exact passes_mark.2 ⟨m, hb, PublicKey.bytes_of_ofBytes hkey ▸ hp⟩
      | error fault =>
        rw [hkey] at hread
        exact absurd hread Reader.fail_ne_ok
  · intro hp
    obtain ⟨m, hb, hp⟩ := passes_mark.1 hp
    have hl : key.bytes.length = 33 := key.encoding.length_toList
    have hlong : ¬(m.unread.take 33).length < 33 := by
      rw [hp.1, List.length_take, List.length_append, hl]
      omega
    refine Reader.bind_eq_ok.2 ⟨_, m, (reads_u8 _ _ _).2 ⟨trivial, hb⟩, ?_⟩
    refine Reader.bind_eq_ok.2 ⟨_, m, rfl, ?_⟩
    rw [if_neg hlong]
    refine Reader.bind_eq_ok.2 ⟨key.bytes, c', takeOr_eq_ok.2 ⟨hl, hp⟩, ?_⟩
    rw [key.ofBytes_bytes]
    rfl

/-- **A key that cannot be read** is a break in the layout, as it is only read if there are octets
enough. -/
theorem readKey_eq_error {e : Error} (h : c.unread ≠ []) (he : readKey c = (.error e, c')) :
    ∃ fault, e = .layout fault := by
  rcases Reader.bind_eq_error.1 he with he | ⟨b, m, -, he⟩
  · exact absurd (Reader.u8_eq_error.1 he).1 h
  rcases Reader.bind_eq_error.1 he with he | ⟨rest, _, ⟨⟩, he⟩
  · cases he
  split at he
  · exact ⟨_, (Reader.fail_eq_error.1 he).1.symm⟩
  · next hlong =>
    rcases Reader.bind_eq_error.1 he with he | ⟨bs, m', -, he⟩
    · refine absurd (Reader.takeOr_eq_error.1 he).1 fun hshort => hlong ?_
      exact Nat.lt_of_le_of_lt (List.length_take_le' _ _) hshort
    · cases hkey : PublicKey.ofBytes bs with
      | ok key =>
        rw [hkey] at he
        exact absurd he Reader.pure_ne_error
      | error fault =>
        rw [hkey] at he
        exact ⟨_, (Reader.fail_eq_error.1 he).1.symm⟩

theorem readKeys_succ (rounds : Nat) (done : List PublicKey)
    (h : c.unread.head? = some Opcode.pushKey) : readKeys (rounds + 1) done c =
      (readKey >>= fun key => readKeys rounds (key :: done)) c := by
  rw [readKeys, if_pos h]
  rcases hkey : readKey c with ⟨_ | key, m⟩
  · exact (Reader.bind_of_error hkey).symm
  · exact (Reader.bind_of_ok (f := fun key => readKeys rounds (key :: done)) hkey).symm

/-- Keys laid out one after the other, each behind the operation that pushes it. -/
def pushes (keys : List PublicKey) : Bytes :=
  keys.flatMap fun key => Opcode.pushKey :: key.bytes

/-- Where no key is pushed, reading ends, and so does every list of keys that can be passed. -/
theorem readKeys_end {done keys : List PublicKey} (hc : c.unread.head? ≠ some Opcode.pushKey) :
    (Except.ok done.reverse, c) = ((.ok keys, c') : Except Error _ × _) ↔
      ∃ ys, keys = done.reverse ++ ys ∧ c.Passes (pushes ys) c' ∧
        c'.unread.head? ≠ some Opcode.pushKey := by
  simp only [Prod.mk.injEq, Except.ok.injEq]
  constructor
  · rintro ⟨rfl, rfl⟩
    exact ⟨[], (List.append_nil _).symm, Cursor.passes_nil.2 rfl, hc⟩
  · rintro ⟨_ | ⟨key, ys⟩, rfl, hp, -⟩
    · exact ⟨(List.append_nil _).symm, Cursor.passes_nil.1 hp⟩
    · exact absurd (by rw [hp.1]; rfl) hc

/-- **The keys** are read as long as another one is pushed. -/
theorem readKeys_eq_ok {rounds : Nat} {done keys : List PublicKey} (h : c.unread.length ≤ rounds) :
    readKeys rounds done c = (.ok keys, c') ↔
      ∃ ys, keys = done.reverse ++ ys ∧ c.Passes (pushes ys) c' ∧
        c'.unread.head? ≠ some Opcode.pushKey := by
  induction rounds generalizing done c with
  | zero =>
    have hnil : c.unread = [] := List.length_eq_zero_iff.1 (Nat.le_zero.1 h)
    exact readKeys_end (by rw [hnil]; exact nofun)
  | succ rounds ih =>
    by_cases hpush : c.unread.head? = some Opcode.pushKey
    · rw [readKeys_succ rounds done hpush]
      refine Reader.bind_eq_ok.trans ?_
      simp only [readKey_eq_ok hpush]
      constructor
      · rintro ⟨key, m, hkey, hrest⟩
        obtain ⟨ys, rfl, hp, hne⟩ := (ih (length_le_of_passes_cons hkey h)).1 hrest
        exact ⟨key :: ys, by simp, Cursor.passes_append.2 ⟨m, hkey, hp⟩, hne⟩
      · rintro ⟨_ | ⟨key, ys⟩, rfl, hp, hne⟩
        · rw [Cursor.passes_nil.1 hp] at hpush
          exact absurd hpush hne
        · obtain ⟨m, hkey, hp⟩ := Cursor.passes_append.1 hp
          exact ⟨key, m, hkey, (ih (length_le_of_passes_cons hkey h)).2 ⟨ys, by simp, hp, hne⟩⟩
    · rw [readKeys, if_neg hpush]
      exact readKeys_end hpush

theorem readKeys_eq_error {rounds : Nat} {done : List PublicKey} {e : Error}
    (he : readKeys rounds done c = (.error e, c')) : ∃ fault, e = .layout fault := by
  induction rounds generalizing done c with
  | zero => cases he
  | succ rounds ih =>
    by_cases hpush : c.unread.head? = some Opcode.pushKey
    · have hne : c.unread ≠ [] := fun hnil => by simp [hnil] at hpush
      rw [readKeys_succ rounds done hpush] at he
      rcases Reader.bind_eq_error.1 he with he | ⟨key, m, -, he⟩
      · exact readKey_eq_error hne he
      · exact ih he
    · rw [readKeys, if_neg hpush] at he
      cases he

end Keys

/-! ### Reading the whole script -/

section Script

variable {c c' : Cursor} {keys : List PublicKey}

/-- **What follows the keys**: their number and the operation that checks signatures, up to the last
octet. -/
theorem readTail_eq_ok : readTail keys c = (.ok (), c') ↔
    keys ≠ [] ∧ c.Passes [Opcode.small keys.length, Opcode.checkMultisig] c' ∧ c'.unread = [] := by
  constructor
  · intro hread
    obtain ⟨rest, _, ⟨⟩, hread⟩ := Reader.bind_eq_ok.1 hread
    split at hread
    · exact absurd hread Reader.fail_ne_ok
    next hl =>
    obtain ⟨count, m, hcount, hread⟩ := Reader.bind_eq_ok.1 hread
    split at hread
    · exact absurd hread Reader.fail_ne_ok
    next hn =>
    obtain ⟨check, m', hcheck, hread⟩ := Reader.bind_eq_ok.1 hread
    split at hread
    · exact absurd hread Reader.fail_ne_ok
    next hop =>
    obtain ⟨-, rfl⟩ := Reader.pure_eq_ok.1 hread
    obtain ⟨-, hcount⟩ := (reads_u8 _ _ _).1 hcount
    obtain ⟨-, hcheck⟩ := (reads_u8 _ _ _).1 hcheck
    simp only [Bool.or_eq_true, bne_iff_ne, ne_eq, not_or, Decidable.not_not] at hn hop
    obtain ⟨hne, rfl⟩ := hn
    subst hop
    refine ⟨by simpa using hne, passes_mark.2 ⟨m, hcount, hcheck⟩, ?_⟩
    rw [hcount.1, hcheck.1] at hl
    simpa using hl
  · rintro ⟨hne, hp, hend⟩
    obtain ⟨m, hcount, hcheck⟩ := passes_mark.1 hp
    have hl : c.unread.length = 2 := by rw [hp.1, hend]; rfl
    refine Reader.bind_eq_ok.2 ⟨_, c, rfl, ?_⟩
    rw [if_neg (not_not.2 hl)]
    refine Reader.bind_eq_ok.2 ⟨_, m, (reads_u8 _ _ _).2 ⟨trivial, hcount⟩, ?_⟩
    rw [if_neg (by simpa using hne)]
    refine Reader.bind_eq_ok.2 ⟨_, c', (reads_u8 _ _ _).2 ⟨trivial, hcheck⟩, ?_⟩
    rw [if_neg (by simp)]
    rfl

theorem readTail_eq_error {e : Error} (he : readTail keys c = (.error e, c')) :
    ∃ fault, e = .layout fault := by
  rcases Reader.bind_eq_error.1 he with he | ⟨rest, _, ⟨⟩, he⟩
  · cases he
  split at he
  · exact ⟨_, (Reader.fail_eq_error.1 he).1.symm⟩
  next hl =>
  rw [not_not] at hl
  -- there are two octets, one for each of the reads
  rcases Reader.bind_eq_error.1 he with he | ⟨count, m, hcount, he⟩
  · simp [(Reader.u8_eq_error.1 he).1] at hl
  split at he
  · exact ⟨_, (Reader.fail_eq_error.1 he).1.symm⟩
  rcases Reader.bind_eq_error.1 he with he | ⟨check, m', -, he⟩
  · have hp := ((reads_u8 _ _ _).1 hcount).2.1
    simp [hp, (Reader.u8_eq_error.1 he).1] at hl
  split at he
  · exact ⟨_, (Reader.fail_eq_error.1 he).1.symm⟩
  · exact absurd he Reader.pure_ne_error

theorem toNat_small {n : Nat} (h : n ≤ 16) : (Opcode.small n).toNat = 0x50 + n := by
  rw [Opcode.small, UInt8.toNat_ofNat_of_lt' (by simp only [UInt8.size]; omega)]

/-- The number that an operation pushes is from 1 to 16. -/
theorem small?_eq_some_iff {op : UInt8} {n : Nat} :
    Opcode.small? op = some n ↔ (1 ≤ n ∧ n ≤ 16) ∧ op = Opcode.small n := by
  rw [Opcode.small?]
  constructor
  · intro h
    split at h
    · next hop =>
      cases h
      refine ⟨by omega, UInt8.toNat_inj.1 ?_⟩
      rw [toNat_small (by omega)]
      omega
    · cases h
  · rintro ⟨hn, rfl⟩
    rw [toNat_small hn.2, if_pos (by omega)]
    exact congrArg some (by omega)

/-- What is read behind the keys, unless there are too many of them, and the script that they make.
-/
def readEnd (threshold : Nat) (keys : List PublicKey) : Reader RedeemScript := do
  let _ ← if keys.length ≤ maxKeys then readTail keys else pure ()
  match build keys threshold with
  | .ok script => return script
  | .error e => Reader.fail e

theorem parse_of_short {bs : Bytes} (h : bs.length < 3) :
    parse bs = .error (.layout .tooShort) := by
  have hunread : Reader.unread (Cursor.start bs) = (.ok bs, _) := rfl
  rw [parse, read, Reader.bind_of_ok hunread, if_pos h]
  rfl

theorem parse_of_small?_eq_none {op : UInt8} {rest : Bytes} (hl : 2 ≤ rest.length)
    (hop : Opcode.small? op = none) : parse (op :: rest) = .error (.layout .thresholdOpcode) := by
  have hlong : ¬(op :: rest).length < 3 := by
    rw [List.length_cons]
    omega
  have hunread : Reader.unread (Cursor.start (op :: rest)) = (.ok (op :: rest), _) := rfl
  have hu8 : Reader.u8 (Cursor.start (op :: rest)) = (.ok op, ⟨[op], rest⟩) := rfl
  rw [parse, read, Reader.bind_of_ok hunread, if_neg hlong, Reader.bind_of_ok hu8, hop]
  rfl

/-- **Reading a script** whose first octet is the operation for a number goes on to the keys and to
what follows them. -/
theorem read_eq {op : UInt8} {rest : Bytes} {threshold : Nat} (hl : 2 ≤ rest.length)
    (hop : Opcode.small? op = some threshold) : read (Cursor.start (op :: rest)) =
      (readKeys (rest.length + 1) [] >>= readEnd threshold) ⟨[op], rest⟩ := by
  have hlong : ¬(op :: rest).length < 3 := by
    rw [List.length_cons]
    omega
  have hunread : Reader.unread (Cursor.start (op :: rest)) = (.ok (op :: rest), _) := rfl
  have hu8 : Reader.u8 (Cursor.start (op :: rest)) = (.ok op, ⟨[op], rest⟩) := rfl
  rw [read, Reader.bind_of_ok hunread, if_neg hlong, Reader.bind_of_ok hu8, hop]
  rfl

/-- Behind the keys a script is built, whatever comes of it, unless something else follows the keys
than has to and they are not too many. -/
theorem readEnd_eq (threshold : Nat) (keys : List PublicKey) (c : Cursor) :
    readEnd threshold keys c =
      if keys.length ≤ maxKeys then
        match readTail keys c with
        | (.ok _, c') => (build keys threshold, c')
        | (.error e, c') => (.error e, c')
      else (build keys threshold, c) := by
  have hbuilt : ∀ c : Cursor, (match build keys threshold with
      | .ok script => (pure script : Reader RedeemScript)
      | .error e => Reader.fail e) c = (build keys threshold, c) := by
    intro c
    cases build keys threshold with
    | ok script => rfl
    | error e => rfl
  rw [readEnd]
  split
  · rcases htail : readTail keys c with ⟨_ | _, c'⟩
    · exact Reader.bind_of_error htail
    · exact (Reader.bind_of_ok htail).trans (hbuilt c')
  · exact hbuilt c

/-- **What comes of reading**: a break in the layout, or the outcome of building from the keys and
the threshold that were read. These are laid out in front of all else that was given, and unless
there are too many keys, nothing else was. -/
theorem parse_cases (bs : Bytes) : (∃ fault, parse bs = .error (.layout fault)) ∨
    ∃ keys threshold, parse bs = build keys threshold ∧
      (keys.length ≤ maxKeys → bs = layout keys threshold) := by
  by_cases hlong : bs.length < 3
  · exact .inl ⟨.tooShort, parse_of_short hlong⟩
  obtain ⟨op, rest, rfl⟩ := List.exists_cons_of_length_pos (by omega : 0 < bs.length)
  have hl : 2 ≤ rest.length := by
    rw [List.length_cons] at hlong
    omega
  cases hop : Opcode.small? op with
  | none => exact .inl ⟨.thresholdOpcode, parse_of_small?_eq_none hl hop⟩
  | some threshold =>
    obtain ⟨-, rfl⟩ := small?_eq_some_iff.1 hop
    rw [parse, read_eq hl hop]
    rcases hkeys : readKeys (rest.length + 1) [] ⟨[Opcode.small threshold], rest⟩ with ⟨e | keys, m⟩
    · obtain ⟨fault, rfl⟩ := readKeys_eq_error hkeys
      exact .inl ⟨fault, congrArg Prod.fst (Reader.bind_of_error hkeys)⟩
    obtain ⟨_, rfl, hp, -⟩ := (readKeys_eq_ok (Nat.le_succ _)).1 hkeys
    rw [Reader.bind_of_ok hkeys, readEnd_eq]
    split
    · rcases htail : readTail _ m with ⟨e | _, c'⟩
      · obtain ⟨fault, rfl⟩ := readTail_eq_error htail
        exact .inl ⟨fault, rfl⟩
      · obtain ⟨-, hp', hend⟩ := readTail_eq_ok.1 htail
        refine .inr ⟨_, threshold, rfl, fun _ => ?_⟩
        have hrest := (Cursor.passes_append.2 ⟨m, hp, hp'⟩).1
        rw [hend, List.append_nil] at hrest
        exact congrArg (Opcode.small threshold :: ·) hrest
    · next hn => exact .inr ⟨_, threshold, rfl, fun hle => absurd hle hn⟩

/-- **What was read** is what is written for the script. -/
theorem bytes_of_parse {bs : Bytes} {script : RedeemScript} (h : parse bs = .ok script) :
    script.bytes = bs := by
  rcases parse_cases bs with ⟨fault, hfault⟩ | ⟨keys, threshold, hbuild, hbs⟩
  · rw [h] at hfault
    cases hfault
  · rw [h] at hbuild
    obtain ⟨rfl, rfl⟩ := build_eq_ok_iff.1 hbuild.symm
    exact (hbs script.length_le).symm

/-- **Keys and a threshold laid out without any check** are read with the outcome of building from
them. -/
theorem parse_layout {threshold : Nat} (hk : keys ≠ []) (hn : keys.length ≤ 16)
    (hm : 1 ≤ threshold) (hm' : threshold ≤ 16) :
    parse (layout keys threshold) = build keys threshold := by
  have hop := small?_eq_some_iff.2 ⟨⟨hm, hm'⟩, rfl⟩
  have hl : 2 ≤ (pushes keys ++ [Opcode.small keys.length, Opcode.checkMultisig]).length := by simp
  have hall : ∀ body : Bytes, Cursor.Passes ⟨[Opcode.small threshold], body⟩ body
      ⟨body.reverse ++ [Opcode.small threshold], []⟩ := fun body => ⟨(List.append_nil _).symm, rfl⟩
  obtain ⟨m, hpushes, htail⟩ := Cursor.passes_append.1
    (hall (pushes keys ++ [Opcode.small keys.length, Opcode.checkMultisig]))
  have hlayout : layout keys threshold = Opcode.small threshold ::
      (pushes keys ++ [Opcode.small keys.length, Opcode.checkMultisig]) := rfl
  have hne : m.unread.head? ≠ some Opcode.pushKey := by
    -- the octet behind the keys pushes their number, which is not the one that pushes a key
    rw [htail.1]
    intro hpush
    have hcode := congrArg UInt8.toNat (Option.some.inj hpush)
    rw [toNat_small hn, Opcode.pushKey] at hcode
    simp only [UInt8.reduceToNat] at hcode
    omega
  have hkeys : readKeys _ [] _ = (.ok keys, m) :=
    (readKeys_eq_ok (Nat.le_succ _)).2 ⟨keys, rfl, hpushes, hne⟩
  rw [parse, hlayout, read_eq hl hop, Reader.bind_of_ok hkeys, readEnd_eq]
  split
  · rw [readTail_eq_ok.2 ⟨hk, htail, rfl⟩]
  · rfl

/-- **A script is read from its octets** and from nothing else. -/
theorem parse_eq_ok_iff {bs : Bytes} {script : RedeemScript} :
    parse bs = .ok script ↔ script.bytes = bs := by
  constructor
  · exact bytes_of_parse
  · rintro rfl
    have hn : script.keys.length ≤ 15 := script.length_le
    have hpos := script.one_le_threshold
    have hle := script.threshold_le
    have hne : script.keys ≠ [] := List.ne_nil_of_length_pos (by omega)
    rw [bytes, parse_layout hne (by omega) hpos (by omega), build_eq_ok_iff]
    exact ⟨rfl, rfl⟩

/-- **Scripts are told apart by their octets.** -/
theorem bytes_injective {script script' : RedeemScript} (h : script.bytes = script'.bytes) :
    script = script' :=
  Except.ok.inj ((parse_eq_ok_iff.2 h).symm.trans (parse_eq_ok_iff.2 rfl))

/-- **What can go wrong when a script is read**: its layout, or what building checks. -/
theorem kind_of_parse_eq_error {bs : Bytes} {e : Error} (h : parse bs = .error e) :
    e.kind = .nonStandardScript ∨ e.kind = .tooManyKeys ∨ e.kind = .invalidThreshold ∨
      e.kind = .duplicateKey := by
  rcases parse_cases bs with ⟨fault, hfault⟩ | ⟨keys, threshold, hbuild, -⟩
  · cases h.symm.trans hfault
    exact .inl rfl
  · rcases build_eq_error (hbuild.symm.trans h) with ⟨-, rfl⟩ | ⟨-, -, rfl⟩ | ⟨-, -, key, -, rfl⟩
    · exact .inr (.inl rfl)
    · exact .inr (.inr (.inl rfl))
    · exact .inr (.inr (.inr rfl))

end Script

/-! ### One language -/

/-- **Building and reading describe the same scripts.** From 1 to 15 different keys and a
threshold that they can reach are built, and nothing else is. What is read as a script are the
octets of one that is built, with its keys and its threshold; scripts with the same octets were
built from the same keys, in their order, and the same threshold. Up to 16 keys and any threshold
that has an operation are read, once laid out, with the very outcome of building from them, and if
that is a failure, the number of keys is reported before the threshold and this before a repeated
key. Otherwise reading fails for the layout only. -/
theorem parse_build_agree :
    (∀ (keys : List PublicKey) (threshold : Nat), (∃ script, build keys threshold = .ok script) ↔
      1 ≤ threshold ∧ threshold ≤ keys.length ∧ keys.length ≤ 15 ∧ keys.Nodup) ∧
      (∀ (bs : Bytes) (script : RedeemScript), parse bs = .ok script ↔
        ∃ keys threshold, build keys threshold = .ok script ∧
          (script.keys = keys ∧ script.threshold = threshold) ∧ script.bytes = bs) ∧
      (∀ (keys keys' : List PublicKey) (threshold threshold' : Nat) (script script' : RedeemScript),
        build keys threshold = .ok script → build keys' threshold' = .ok script' →
          script.bytes = script'.bytes → keys = keys' ∧ threshold = threshold') ∧
      (∀ (keys : List PublicKey) (threshold : Nat), 1 ≤ keys.length → keys.length ≤ 16 →
        1 ≤ threshold → threshold ≤ 16 → parse (layout keys threshold) = build keys threshold ∧
          ∀ e, build keys threshold = .error e →
            (15 < keys.length ∧ e = .tooManyKeys keys.length) ∨
              (keys.length ≤ 15 ∧ keys.length < threshold ∧ e = .threshold threshold keys.length) ∨
              (keys.length ≤ 15 ∧ threshold ≤ keys.length ∧
                ∃ key, List.Duplicate key keys ∧ e = .duplicateKey key.bytes)) ∧
      ∀ (bs : Bytes) (e : Error), parse bs = .error e →
        e.kind = .nonStandardScript ∨ e.kind = .tooManyKeys ∨ e.kind = .invalidThreshold ∨
          e.kind = .duplicateKey := by
  refine ⟨fun keys threshold => exists_build_iff, fun bs script => ?_, ?_, ?_, fun bs e h => ?_⟩
  · rw [parse_eq_ok_iff]
    constructor
    · intro h
      exact ⟨_, _, build_eq_ok_iff.2 ⟨rfl, rfl⟩, ⟨rfl, rfl⟩, h⟩
    · rintro ⟨keys, threshold, -, -, h⟩
      exact h
  · intro keys keys' threshold threshold' script script' h h' hbytes
    obtain rfl := bytes_injective hbytes
    obtain ⟨rfl, rfl⟩ := build_eq_ok_iff.1 h
    exact build_eq_ok_iff.1 h'
  · intro keys threshold hk hn hm hm'
    refine ⟨parse_layout (List.ne_nil_of_length_pos hk) hn hm hm', fun e he => ?_⟩
    rcases build_eq_error he with hmany | ⟨hn, hout, rfl⟩ | ⟨hn, hin, hkey⟩
    · exact .inl hmany
    · exact .inr (.inl ⟨hn, by omega, rfl⟩)
    · exact .inr (.inr ⟨hn, hin.2, hkey⟩)
  · exact kind_of_parse_eq_error h

/-- The generator's key: alone it makes a script, which is read back; twice it makes none, and
sixteen times it is too many keys before it is a repeated one. No octets at all are too short. -/
theorem parse_build_agree_generator : ∃ key : PublicKey, key.point = generator ∧
    (∃ script, build [key] 1 = .ok script ∧ parse (layout [key] 1) = .ok script ∧
      ∀ keys' threshold', build keys' threshold' = .ok script → [key] = keys' ∧ 1 = threshold') ∧
      parse (layout [key, key] 2) = .error (.duplicateKey key.bytes) ∧
      parse (layout (List.replicate 16 key) 16) = .error (.tooManyKeys 16) ∧
      parse [] = .error (.layout .tooShort) ∧
      (Error.kind (.layout .tooShort) = .nonStandardScript ∨
        Error.kind (.layout .tooShort) = .tooManyKeys ∨
        Error.kind (.layout .tooShort) = .invalidThreshold ∨
        Error.kind (.layout .tooShort) = .duplicateKey) := by
  obtain ⟨key, -, hpoint⟩ := PublicKey.exists_ofPoint generator_onCurve
  obtain ⟨hbuild, -, hinj, hlayout, hkind⟩ := parse_build_agree
  obtain ⟨hone, -⟩ := hlayout [key] 1 (by simp) (by simp) (by decide) (by decide)
  obtain ⟨htwo, herror⟩ := hlayout [key, key] 2 (by simp) (by simp) (by decide) (by decide)
  obtain ⟨hmany, herrors⟩ := hlayout (List.replicate 16 key) 16 (by simp) (by simp) (by decide)
    (by decide)
  obtain ⟨script, hscript⟩ := (hbuild [key] 1).2 ⟨by decide, by simp, by simp, by simp⟩
  refine ⟨key, hpoint, ⟨script, hscript, hone.trans hscript, ?_⟩, ?_, ?_, rfl, hkind [] _ rfl⟩
  · intro keys' threshold' h
    exact hinj [key] keys' 1 threshold' script script hscript h rfl
  · rw [htwo]
    rcases h : build [key, key] 2 with e | script'
    · rcases herror e h with ⟨hlt, -⟩ | ⟨-, hlt, -⟩ | ⟨-, -, key', hdup, rfl⟩
      · simp at hlt
      · simp at hlt
      · have hkey : key' = key := by simpa using hdup.mem
        rw [hkey]
    · have hnodup := ((hbuild [key, key] 2).1 ⟨script', h⟩).2.2.2
      simp at hnodup
  · rw [hmany]
    rcases h : build (List.replicate 16 key) 16 with e | script'
    · rcases herrors e h with ⟨-, rfl⟩ | ⟨hle, -⟩ | ⟨hle, -⟩
      · rw [List.length_replicate]
      · simp at hle
      · simp at hle
    · have hle := ((hbuild _ _).1 ⟨script', h⟩).2.2.1
      simp at hle

end WitnessSigning.RedeemScript
