import WitnessSigning.Wire.Reader

/-!
# What readers accept

A reader of this library accepts exactly what the writer beside it produces. Both directions are one
statement here, `WitnessSigning.Wire.Reads`: a read yields a value exactly if the value is one that
the writer can write and the octets passed are those written for it. Nothing is said about what
comes behind these octets, so the statement composes: readers one behind the other accept the octets
of their values one behind the other (`WitnessSigning.Wire.Cursor.passes_append`), and a counted
list of items is read as soon as its items are (`WitnessSigning.Wire.reads_counted`).

What a reader accepts also tells values apart: no octets start with what is written for two of them
(`WitnessSigning.Wire.Reads.append_inj`).
-/

namespace WitnessSigning.Wire

/-! ### Passing octets -/

/-- **The octets between two cursors**: from the first one to the second one exactly these are
passed. -/
def Cursor.Passes (c : Cursor) (bs : Bytes) (c' : Cursor) : Prop :=
  c.unread = bs ++ c'.unread ∧ c'.passed = bs.reverse ++ c.passed

namespace Cursor

variable {c c' : Cursor} {bs bs' : Bytes}

theorem passes_nil : c.Passes [] c' ↔ c = c' := by
  obtain ⟨p, u⟩ := c
  obtain ⟨p', u'⟩ := c'
  simp only [Passes, List.nil_append, List.reverse_nil, Cursor.mk.injEq]
  exact ⟨fun ⟨hu, hp⟩ => ⟨hp.symm, hu⟩, fun ⟨hp, hu⟩ => ⟨hu, hp.symm⟩⟩

/-- **Two passages make one.** -/
theorem passes_append :
    c.Passes (bs ++ bs') c' ↔ ∃ m, c.Passes bs m ∧ m.Passes bs' c' := by
  constructor
  · rintro ⟨hu, hp⟩
    refine ⟨⟨bs.reverse ++ c.passed, bs' ++ c'.unread⟩, ⟨?_, rfl⟩, rfl, ?_⟩
    · rw [hu, List.append_assoc]
    · rw [hp, List.reverse_append, List.append_assoc]
  · rintro ⟨m, ⟨hu, hp⟩, hu', hp'⟩
    refine ⟨?_, ?_⟩
    · rw [hu, hu', List.append_assoc]
    · rw [hp', hp, List.reverse_append, List.append_assoc]

/-- The passage of some octets in front of a cursor leads to one place only. -/
theorem passes_iff_advance :
    c.Passes bs c' ↔ c.unread.take bs.length = bs ∧ c' = c.advance bs.length := by
  obtain ⟨p, u⟩ := c
  obtain ⟨p', u'⟩ := c'
  constructor
  · rintro ⟨hu, hp⟩
    simp only at hu hp
    subst hu hp
    simp [advance]
  · rintro ⟨ht, h⟩
    simp only [advance, Cursor.mk.injEq] at h ht
    obtain ⟨rfl, rfl⟩ := h
    refine ⟨?_, by rw [ht]⟩
    calc u = u.take bs.length ++ u.drop bs.length := (List.take_append_drop _ _).symm
      _ = bs ++ u.drop bs.length := by rw [ht]

end Cursor

/-! ### Successful reads -/

namespace Reader

variable {α β : Type} {c c' : Cursor}

theorem bind_of_ok {r : Reader α} {f : α → Reader β} {a : α} (h : r c = (.ok a, c')) :
    (r >>= f) c = f a c' := by
  simp only [bind, h]

theorem bind_of_error {r : Reader α} {f : α → Reader β} {e : Error} (h : r c = (.error e, c')) :
    (r >>= f) c = (.error e, c') := by
  simp only [bind, h]

/-- **Reads one behind the other.** -/
theorem bind_eq_ok {r : Reader α} {f : α → Reader β} {b : β} :
    (r >>= f) c = (.ok b, c') ↔ ∃ a m, r c = (.ok a, m) ∧ f a m = (.ok b, c') := by
  rcases h : r c with ⟨_ | a, m⟩
  · rw [bind_of_error h]
    simp
  · rw [bind_of_ok h]
    simp only [Prod.mk.injEq, Except.ok.injEq]
    exact ⟨fun h => ⟨a, m, ⟨rfl, rfl⟩, h⟩, fun ⟨_, _, ⟨rfl, rfl⟩, h⟩ => h⟩

theorem pure_eq_ok {a b : α} : (pure a : Reader α) c = (.ok b, c') ↔ a = b ∧ c = c' := by
  change (Except.ok a, c) = (Except.ok b, c') ↔ _
  simp

theorem fail_ne_ok {e : Error} {a : α} : (fail e : Reader α) c ≠ (.ok a, c') := by
  intro h
  simp [fail] at h

/-- **Reads one behind the other fail** if the first one does, or the second one behind it. -/
theorem bind_eq_error {r : Reader α} {f : α → Reader β} {e : Error} :
    (r >>= f) c = (.error e, c') ↔
      r c = (.error e, c') ∨ ∃ a m, r c = (.ok a, m) ∧ f a m = (.error e, c') := by
  rcases h : r c with ⟨_ | a, m⟩
  · rw [bind_of_error h]
    simp
  · rw [bind_of_ok h]
    simp only [Prod.mk.injEq, Except.ok.injEq, reduceCtorEq, false_and, false_or]
    exact ⟨fun h => ⟨a, m, ⟨rfl, rfl⟩, h⟩, fun ⟨_, _, ⟨rfl, rfl⟩, h⟩ => h⟩

theorem pure_ne_error {e : Error} {a : α} : (pure a : Reader α) c ≠ (.error e, c') :=
  fun h => nomatch h

theorem fail_eq_error {e e' : Error} :
    (fail e : Reader α) c = (.error e', c') ↔ e = e' ∧ c = c' := by
  simp [fail]

/-- One octet is missing only at the end. -/
theorem u8_eq_error {e : Error} :
    u8 c = (.error e, c') ↔ c.unread = [] ∧ .endOfData = e ∧ c = c' := by
  rw [u8]
  split
  · next h => simp only [h, Prod.mk.injEq, Except.error.injEq, true_and]
  · next h => simp [h]

/-- Octets are missing only if there are fewer than asked for. -/
theorem takeOr_eq_error {e e' : Error} {n : Nat} :
    takeOr e n c = (.error e', c') ↔ c.unread.length < n ∧ e = e' ∧ c = c' := by
  have hn : c.holds n = true ↔ n ≤ c.unread.length := c.holds_iff n
  rw [takeOr]
  split
  · next h => simpa using fun hlt => absurd (hn.1 h) (Nat.not_le.2 hlt)
  · next h => simpa using fun _ _ => Nat.lt_of_not_le fun hle => h (hn.2 hle)

/-- **Octets of a known width** are read as any others are; they only come with their width. -/
theorem take_eq_octets (n : Nat) (c : Cursor) :
    take n c = ((octets n c).1.map Octets.toList, (octets n c).2) := by
  have hn : c.holds n = true ↔ (c.unread.take n).length = n := by rw [Cursor.holds, beq_iff_eq]
  rw [take, takeOr, octets]
  by_cases h : (c.unread.take n).length = n
  · rw [if_pos (hn.2 h), dif_pos h]
    rfl
  · rw [if_neg (mt hn.1 h), dif_neg h]
    rfl

theorem octets_eq_ok {n : Nat} {a : Octets n} :
    octets n c = (.ok a, c') ↔ take n c = (.ok a.toList, c') := by
  rw [take_eq_octets]
  rcases octets n c with ⟨e | b, m⟩
  · simp [Except.map]
  · simp only [Except.map, Prod.mk.injEq, Except.ok.injEq]
    exact and_congr_left fun _ => ⟨congrArg _, Octets.ext_toList⟩

/-- Octets of a known width are missing only if there are fewer. -/
theorem octets_eq_error {e : Error} {n : Nat} :
    octets n c = (.error e, c') ↔ c.unread.length < n ∧ .endOfData = e ∧ c = c' := by
  rw [← takeOr_eq_error, ← take, take_eq_octets]
  rcases octets n c with ⟨e | b, m⟩ <;> simp [Except.map]

end Reader

/-- **A reader accepts exactly what a writer writes**: it yields a value if and only if the value is
one of those that can be written and the octets passed are those written for it. -/
def Reads {α : Type} (r : Reader α) (Writable : α → Prop) (write : α → Bytes) : Prop :=
  ∀ (a : α) (c c' : Cursor), r c = (.ok a, c') ↔ Writable a ∧ c.Passes (write a) c'

/-! ### What is written can be told apart -/

section Apart

variable {α : Type} {r : Reader α} {Writable : α → Prop} {write : α → Bytes}

/-- **What is written shows where it ends**: if the octets written for two values start the same
octets, the values are equal and what follows is too. -/
theorem Reads.append_inj (h : Reads r Writable write) {a b : α} (ha : Writable a) (hb : Writable b)
    {xs ys : Bytes} (he : write a ++ xs = write b ++ ys) : a = b ∧ xs = ys := by
  have hread : r (Cursor.start (write a ++ xs)) = (.ok a, ⟨(write a).reverse, xs⟩) :=
    (h _ _ _).2 ⟨ha, rfl, (List.append_nil _).symm⟩
  have hread' : r (Cursor.start (write b ++ ys)) = (.ok b, ⟨(write b).reverse, ys⟩) :=
    (h _ _ _).2 ⟨hb, rfl, (List.append_nil _).symm⟩
  -- a reader comes to one outcome on the same octets
  rw [he, hread'] at hread
  simp only [Prod.mk.injEq, Except.ok.injEq, Cursor.mk.injEq] at hread
  exact ⟨hread.1.symm, hread.2.2.symm⟩

/-- **Items written one behind the other** are told apart without their number, as long as no item
takes up no octets. -/
theorem Reads.flatMap_inj (h : Reads r Writable write) (hne : ∀ a, write a ≠ []) {as bs : List α}
    (has : ∀ a ∈ as, Writable a) (hbs : ∀ b ∈ bs, Writable b)
    (he : as.flatMap write = bs.flatMap write) : as = bs := by
  induction as generalizing bs with
  | nil =>
    cases bs with
    | nil => rfl
    | cons b bs => exact absurd (List.append_eq_nil_iff.1 he.symm).1 (hne b)
  | cons a as ih =>
    cases bs with
    | nil => exact absurd (List.append_eq_nil_iff.1 he).1 (hne a)
    | cons b bs =>
      obtain ⟨rfl, hrest⟩ := h.append_inj (has a List.mem_cons_self) (hbs b List.mem_cons_self) he
      rw [ih (fun a ha => has a (List.mem_cons_of_mem _ ha))
        (fun b hb => hbs b (List.mem_cons_of_mem _ hb)) hrest]

end Apart

/-! ### Fields of a known width -/

section Width

variable {c c' : Cursor}

theorem takeOr_eq_ok {e : Error} {n : Nat} {bs : Bytes} :
    Reader.takeOr e n c = (.ok bs, c') ↔ bs.length = n ∧ c.Passes bs c' := by
  rw [Reader.takeOr]
  split
  · next h =>
    have hn : n ≤ c.unread.length := (c.holds_iff n).1 h
    simp only [Prod.mk.injEq, Except.ok.injEq, Cursor.passes_iff_advance]
    constructor
    · rintro ⟨rfl, rfl⟩
      simp [List.length_take, Nat.min_eq_left hn]
    · rintro ⟨rfl, hb, hc⟩
      exact ⟨hb, hc.symm⟩
  · next h =>
    simp only [Prod.mk.injEq, reduceCtorEq, false_and, false_iff, not_and]
    rintro rfl ⟨hu, -⟩
    exact h ((c.holds_iff _).2 (by simp [Cursor.remaining, hu]))

/-- **One octet.** -/
theorem reads_u8 : Reads Reader.u8 (fun _ => True) fun b => [b] := by
  intro b c c'
  simp only [true_and, Cursor.passes_iff_advance]
  rw [Reader.u8]
  split
  · next h => simp [h]
  · next b' rest h => simp [h, eq_comm]

theorem reads_octets (n : Nat) :
    Reads (Reader.octets n) (fun _ => True) Octets.toList := by
  intro a c c'
  rw [Reader.octets_eq_ok, Reader.take, takeOr_eq_ok, a.length_toList]
  exact and_congr_left fun _ => iff_of_true rfl trivial

/-- The octets of a number of `w` octets, and the number that they are read as. -/
theorem take_littleEndian_iff {w v : Nat} :
    (∃ bs, Reader.take w c = (.ok bs, c') ∧ ofLittleEndian bs = v) ↔
      v < capacity w ∧ c.Passes (littleEndian w v) c' := by
  constructor
  · rintro ⟨bs, h, rfl⟩
    obtain ⟨rfl, hp⟩ := takeOr_eq_ok.1 h
    exact ⟨ofLittleEndian_lt bs, (littleEndian_ofLittleEndian bs).symm ▸ hp⟩
  · rintro ⟨hv, hp⟩
    refine ⟨littleEndian w v, takeOr_eq_ok.2 ⟨length_littleEndian w v, hp⟩, ?_⟩
    rw [ofLittleEndian_littleEndian, Nat.mod_eq_of_lt hv]

end Width

/-! ### Numbers -/

section Numbers

variable {c c' : Cursor}

theorem reads_u32 : Reads Reader.u32 (fun _ => True) Wire.u32 := by
  intro v c c'
  have hv : v.toNat < capacity 4 := v.toNat_lt
  rw [Reader.u32]
  simp only [Reader.bind_eq_ok, Reader.pure_eq_ok, true_and]
  constructor
  · rintro ⟨bs, m, h, rfl, rfl⟩
    obtain ⟨hlt, hp⟩ := take_littleEndian_iff.1 ⟨bs, h, rfl⟩
    rwa [Wire.u32, UInt32.toNat_ofNat_of_lt' hlt]
  · intro hp
    obtain ⟨bs, h, hbs⟩ := take_littleEndian_iff.2 ⟨hv, hp⟩
    exact ⟨bs, c', h, by rw [hbs, UInt32.ofNat_toNat], rfl⟩

theorem reads_u64 : Reads Reader.u64 (fun _ => True) Wire.u64 := by
  intro v c c'
  have hv : v.toNat < capacity 8 := v.toNat_lt
  rw [Reader.u64]
  simp only [Reader.bind_eq_ok, Reader.pure_eq_ok, true_and]
  constructor
  · rintro ⟨bs, m, h, rfl, rfl⟩
    obtain ⟨hlt, hp⟩ := take_littleEndian_iff.1 ⟨bs, h, rfl⟩
    rwa [Wire.u64, UInt64.toNat_ofNat_of_lt' hlt]
  · intro hp
    obtain ⟨bs, h, hbs⟩ := take_littleEndian_iff.2 ⟨hv, hp⟩
    exact ⟨bs, c', h, by rw [hbs, UInt64.ofNat_toNat], rfl⟩

/-- **What stands behind a mark**: a number in so many octets that is not below the least one for
them. -/
theorem wideSize_eq_ok {width least : Nat} {v : UInt64} (hw : capacity width ≤ UInt64.size) :
    Reader.wideSize width least c = (.ok v, c') ↔
      (least ≤ v.toNat ∧ v.toNat < capacity width) ∧ c.Passes (littleEndian width v.toNat) c' := by
  rw [Reader.wideSize]
  simp only [Reader.bind_eq_ok]
  constructor
  · rintro ⟨bs, m, h, hv⟩
    obtain ⟨hlt, hp⟩ := take_littleEndian_iff.1 ⟨bs, h, rfl⟩
    split at hv
    · exact absurd hv Reader.fail_ne_ok
    · next hle =>
      obtain ⟨rfl, rfl⟩ := Reader.pure_eq_ok.1 hv
      rw [UInt64.toNat_ofNat_of_lt' (Nat.lt_of_lt_of_le hlt hw)]
      exact ⟨⟨Nat.le_of_not_lt hle, hlt⟩, hp⟩
  · rintro ⟨⟨hle, hlt⟩, hp⟩
    obtain ⟨bs, h, hbs⟩ := take_littleEndian_iff.2 ⟨hlt, hp⟩
    refine ⟨bs, c', h, ?_⟩
    rw [hbs, if_neg (Nat.not_lt.2 hle), UInt64.ofNat_toNat]
    rfl

/-- The octets behind a mark. -/
theorem passes_mark {mark : UInt8} {bs : Bytes} :
    c.Passes (mark :: bs) c' ↔ ∃ m, c.Passes [mark] m ∧ m.Passes bs c' :=
  @Cursor.passes_append c c' [mark] bs

/-- What was read as a count or length is what is written for it. -/
theorem passes_of_size {v : UInt64} (h : Reader.size c = (.ok v, c')) :
    c.Passes (Wire.size v) c' := by
  obtain ⟨mark, m, hm, h⟩ := Reader.bind_eq_ok.1 h
  obtain ⟨-, hm⟩ := (reads_u8 _ _ _).1 hm
  split at h
  · next hlt =>
    obtain ⟨rfl, rfl⟩ := Reader.pure_eq_ok.1 h
    have hmark : mark.toNat < 0xfd := hlt
    rw [Wire.size, UInt64.toNat_ofNat_of_lt' (by simp only [UInt64.size]; omega), if_pos hmark,
      UInt8.ofNat_toNat]
    exact hm
  split at h
  · next hmark =>
    obtain ⟨⟨hle, hlt⟩, hp⟩ := (wideSize_eq_ok (by decide)).1 h
    simp only [capacity] at hlt
    rw [Wire.size, if_neg (by omega), if_pos (by omega)]
    exact passes_mark.2 ⟨m, hmark ▸ hm, hp⟩
  split at h
  · next hmark =>
    obtain ⟨⟨hle, hlt⟩, hp⟩ := (wideSize_eq_ok (by decide)).1 h
    simp only [capacity] at hlt
    rw [Wire.size, if_neg (by omega), if_neg (by omega), if_pos (by omega)]
    exact passes_mark.2 ⟨m, hmark ▸ hm, hp⟩
  · next h₁ h₂ h₃ =>
    obtain ⟨⟨hle, hlt⟩, hp⟩ := (wideSize_eq_ok (by decide)).1 h
    -- the only mark that is left
    have hmark : mark = 0xff := by
      have hge : ¬ mark.toNat < 0xfd := h₁
      have hne : mark.toNat ≠ 0xfd := fun e => h₂ (UInt8.toNat_inj.1 e)
      have hne' : mark.toNat ≠ 0xfe := fun e => h₃ (UInt8.toNat_inj.1 e)
      have hlt := mark.toNat_lt
      exact UInt8.toNat_inj.1 (show mark.toNat = 0xff by omega)
    rw [Wire.size, if_neg (by omega), if_neg (by omega), if_neg (by omega)]
    exact passes_mark.2 ⟨m, hmark ▸ hm, hp⟩

/-- What is written for a count or length is read as it. -/
theorem size_of_passes {v : UInt64} (hp : c.Passes (Wire.size v) c') :
    Reader.size c = (.ok v, c') := by
  have hv : v.toNat < capacity 8 := v.toNat_lt
  rw [Wire.size] at hp
  rw [Reader.size]
  simp only [Reader.bind_eq_ok, reads_u8 _ _ _, true_and]
  split at hp
  · next hlt =>
    -- a count below the marks is its own mark
    have hmark : (UInt8.ofNat v.toNat).toNat = v.toNat := by
      rw [UInt8.toNat_ofNat']
      omega
    have hlt' : UInt8.ofNat v.toNat < 0xfd := UInt8.lt_iff_toNat_lt.2 (hmark.symm ▸ hlt)
    refine ⟨_, c', hp, ?_⟩
    rw [if_pos hlt', hmark, UInt64.ofNat_toNat]
    rfl
  split at hp
  · obtain ⟨m, hm, hp⟩ := passes_mark.1 hp
    refine ⟨_, m, hm, (wideSize_eq_ok (by decide)).2 ⟨⟨by omega, ?_⟩, hp⟩⟩
    simp only [capacity]
    omega
  split at hp
  · obtain ⟨m, hm, hp⟩ := passes_mark.1 hp
    refine ⟨_, m, hm, (wideSize_eq_ok (by decide)).2 ⟨⟨by omega, ?_⟩, hp⟩⟩
    simp only [capacity]
    omega
  · obtain ⟨m, hm, hp⟩ := passes_mark.1 hp
    exact ⟨_, m, hm, (wideSize_eq_ok (by decide)).2 ⟨⟨by omega, hv⟩, hp⟩⟩

/-- **A count or length** is read in its shortest form only. -/
theorem reads_size : Reads Reader.size (fun _ => True) Wire.size :=
  fun _ _ _ => ⟨fun h => ⟨trivial, passes_of_size h⟩, fun h => size_of_passes h.2⟩

theorem size_ne_nil (v : UInt64) : Wire.size v ≠ [] := by
  rw [Wire.size]
  repeat' split
  all_goals exact List.cons_ne_nil _ _

/-- A count or length that starts with less than a mark is that octet alone. -/
theorem size_eq_cons {v : UInt64} {b : UInt8} {rest : Bytes} (h : Wire.size v = b :: rest)
    (hb : b.toNat < 0xfd) : v.toNat = b.toNat ∧ rest = [] := by
  rw [Wire.size] at h
  split at h
  · next hlt =>
    obtain ⟨rfl, rfl⟩ := List.cons.inj h
    refine ⟨?_, rfl⟩
    rw [UInt8.toNat_ofNat']
    omega
  split at h
  · obtain ⟨rfl, -⟩ := List.cons.inj h
    exact absurd hb (by decide)
  split at h
  · obtain ⟨rfl, -⟩ := List.cons.inj h
    exact absurd hb (by decide)
  · obtain ⟨rfl, -⟩ := List.cons.inj h
    exact absurd hb (by decide)

end Numbers

/-! ### Items behind their count -/

section Counted

variable {c c' : Cursor} {α : Type}

/-- A list that a word of 64 bits can count. -/
def Countable (xs : List α) : Prop :=
  xs.length < UInt64.size

instance (xs : List α) : Decidable (Countable xs) :=
  inferInstanceAs (Decidable (_ < _))

theorem Countable.toNat_ofNat {xs : List α} (h : Countable xs) :
    (UInt64.ofNat xs.length).toNat = xs.length :=
  UInt64.toNat_ofNat_of_lt' h

/-- A count that starts with less than a mark is that octet alone. -/
theorem Countable.count_append_eq_cons {xs : List α} (h : Countable xs) {b : UInt8}
    (hb : b.toNat < 0xfd) {bs rest : Bytes} (he : Wire.count xs ++ bs = b :: rest) :
    xs.length = b.toNat ∧ bs = rest := by
  rcases hs : Wire.count xs with _ | ⟨b', t⟩
  · exact absurd hs (size_ne_nil _)
  · rw [hs, List.cons_append, List.cons.injEq] at he
    obtain ⟨rfl, rfl⟩ := he
    obtain ⟨hn, rfl⟩ := size_eq_cons hs hb
    exact ⟨h.toNat_ofNat ▸ hn, rfl⟩

/-- **Octets behind their length.** -/
theorem reads_sized : Reads Reader.sized Countable Wire.sized := by
  intro bs c c'
  rw [Reader.sized]
  simp only [Reader.bind_eq_ok, reads_size _ _ _, true_and, takeOr_eq_ok, Wire.sized, Wire.count,
    Cursor.passes_append]
  constructor
  · rintro ⟨n, m, hm, hn, hp⟩
    refine ⟨show bs.length < UInt64.size from hn ▸ n.toNat_lt, m, ?_, hp⟩
    rwa [hn, UInt64.ofNat_toNat]
  · rintro ⟨hbs, m, hm, hp⟩
    exact ⟨_, m, hm, hbs.toNat_ofNat.symm, hp⟩

variable {item : Reader α} {Writable : α → Prop} {write : α → Bytes}

/-- The items behind those already read. -/
theorem many_eq_ok (h : Reads item Writable write) {n : Nat} {done xs : List α} :
    Reader.many item n done c = (.ok xs, c') ↔
      ∃ ys, xs = done.reverse ++ ys ∧ ys.length = n ∧ (∀ y ∈ ys, Writable y) ∧
        c.Passes (ys.flatMap write) c' := by
  induction n generalizing done c with
  | zero =>
    simp only [Reader.many, Prod.mk.injEq, Except.ok.injEq, List.length_eq_zero_iff]
    constructor
    · rintro ⟨rfl, rfl⟩
      exact ⟨[], by simp, rfl, by simp, Cursor.passes_nil.2 rfl⟩
    · rintro ⟨_, rfl, rfl, -, hp⟩
      exact ⟨by simp, Cursor.passes_nil.1 hp⟩
  | succ n ih =>
    refine (Reader.bind_eq_ok (r := item) (f := fun y => Reader.many item n (y :: done))).trans ?_
    simp only [h _ _ _, ih]
    constructor
    · rintro ⟨y, m, ⟨hy, hm⟩, ys, rfl, rfl, hys, hp⟩
      refine ⟨y :: ys, by simp, rfl, ?_, Cursor.passes_append.2 ⟨m, hm, hp⟩⟩
      simpa using ⟨hy, hys⟩
    · rintro ⟨_ | ⟨y, ys⟩, rfl, hn, hys, hp⟩
      · cases hn
      · obtain ⟨m, hm, hp⟩ := Cursor.passes_append.1 hp
        exact ⟨y, m, ⟨hys y (by simp), hm⟩, ys, by simp, Nat.succ.inj hn,
          fun z hz => hys z (by simp [hz]), hp⟩

/-- **A list of items behind its count.** -/
theorem reads_counted (h : Reads item Writable write) :
    Reads (Reader.counted item) (fun xs => Countable xs ∧ ∀ x ∈ xs, Writable x)
      fun xs => Wire.count xs ++ xs.flatMap write := by
  intro xs c c'
  refine (Reader.bind_eq_ok (r := Reader.size)).trans ?_
  simp only [reads_size _ _ _, true_and, many_eq_ok h, Wire.count, Cursor.passes_append]
  constructor
  · rintro ⟨n, m, hm, ys, hxs, hn, hys, hp⟩
    obtain rfl : xs = ys := hxs
    have hc : Countable xs := show xs.length < UInt64.size from hn ▸ n.toNat_lt
    refine ⟨⟨hc, hys⟩, m, ?_, hp⟩
    rwa [hn, UInt64.ofNat_toNat]
  · rintro ⟨⟨hc, hxs⟩, m, hm, hp⟩
    exact ⟨_, m, hm, xs, rfl, hc.toNat_ofNat.symm, hxs, hp⟩

end Counted

end WitnessSigning.Wire
