import WitnessSigning.Proofs.Wire.Local

/-!
# What a reading session sees

The requests of a session are answered one after the other, also behind one that failed. What an
answer may be is said here without cursors, by the octets and a position in them
(`WitnessSigning.Wire.Answers`): a field that stands next in the octets is given out and passed, a
look ahead passes nothing, and where octets are lacking nothing is passed either, except that the
octets of a count or length may be gone when it turns out to be wrong.

A session keeps to this through all its requests (`WitnessSigning.Wire.session_within`), whatever
is asked for and whatever failed before. There is one request that breaks it. The number of octets
that a look ahead needs is one more than its offset, and for the largest offset
(`WitnessSigning.Wire.maxOffset`) this number is zero in a word of 64 bits, so that the look is
never refused, although no octets could have that many in them. It still moves nothing.

Octets that are read into a place of a known width have no request of their own: they are read as
those of a request for that many (`WitnessSigning.Wire.read_raw_eq_octets`).
-/

namespace WitnessSigning.Wire

/-! ### Places in given octets -/

/-- **A cursor in given octets**: those passed and those unread make them up. -/
def Cursor.In (c : Cursor) (data : Bytes) : Prop :=
  c.passed.reverse ++ c.unread = data

namespace Cursor

variable {c c' : Cursor} {data bs : Bytes}

theorem start_in (data : Bytes) : (start data).In data := rfl

theorem In.position_add_remaining (h : c.In data) : c.position + c.remaining = data.length := by
  rw [← h, List.length_append, List.length_reverse]
  rfl

/-- The octets unread are those behind the position. -/
theorem In.unread_eq (h : c.In data) : c.unread = data.drop c.position := by
  have hlength : c.passed.reverse.length = c.position := List.length_reverse
  rw [← h, ← hlength, List.drop_left]

/-- Counted from the position, octets are those unread. -/
theorem In.getElem?_position_add (h : c.In data) (i : Nat) :
    data[c.position + i]? = c.unread[i]? := by
  rw [h.unread_eq, List.getElem?_drop]

theorem In.length_sub_position (h : c.In data) : data.length - c.position = c.unread.length := by
  rw [← h.position_add_remaining]
  exact Nat.add_sub_cancel_left _ _

theorem Passes.in (hp : c.Passes bs c') (h : c.In data) : c'.In data := by
  rw [In, hp.2, List.reverse_append, List.reverse_reverse, List.append_assoc, ← hp.1]
  exact h

theorem Passes.position_eq (hp : c.Passes bs c') : c'.position = c.position + bs.length := by
  rw [position, hp.2, List.length_append, List.length_reverse, Nat.add_comm]
  rfl

/-- What can be passed is what stands next. -/
theorem Passes.prefix_drop (hp : c.Passes bs c') (h : c.In data) :
    bs <+: data.drop c.position :=
  ⟨c'.unread, by rw [← h.unread_eq, hp.1]⟩

theorem exists_passes (h : c.In data) (hbs : bs <+: data.drop c.position) :
    ∃ c', c.Passes bs c' := by
  obtain ⟨rest, hrest⟩ := hbs
  exact ⟨⟨bs.reverse ++ c.passed, rest⟩, by rw [h.unread_eq, hrest], rfl⟩

end Cursor

/-! ### What a request gives out -/

/-- **The fields that can be read back**: those whose octets a word of 64 bits can count. -/
def Field.Writable : Field → Prop
  | .u8 _ | .u32 _ | .u64 _ | .size _ => True
  | .raw bs | .sized bs => Countable bs

instance : DecidablePred Field.Writable
  | .u8 _ | .u32 _ | .u64 _ | .size _ => isTrue trivial
  | .raw bs | .sized bs => inferInstanceAs (Decidable (Countable bs))

/-- A request that looks ahead and reads nothing. -/
def Request.IsPeek (r : Request) : Prop :=
  ∃ offset, r = .peek offset

theorem Field.not_isPeek_request (f : Field) : ¬f.request.IsPeek := by
  rintro ⟨offset, h⟩
  cases f <;> cases h

section Requests

variable {α : Type} {c c' : Cursor} {r : Request}

/-- A value that is read is given out as a field of one kind. -/
theorem Reads.field {reader : Reader α} {Writable : α → Prop} {write : α → Bytes}
    (h : Reads reader Writable write) {k : α → Field} {P : Field → Prop}
    (hk : ∀ f, P f ↔ ∃ a, k a = f ∧ Writable a) (hencode : ∀ a, (k a).encode = write a) :
    Reads (do return k (← reader)) P Field.encode := by
  intro f c c'
  simp only [Reader.bind_eq_ok, Reader.pure_eq_ok, h _ _ _, hk]
  constructor
  · rintro ⟨a, _, ⟨ha, hp⟩, rfl, rfl⟩
    exact ⟨⟨a, rfl, ha⟩, hencode a ▸ hp⟩
  · rintro ⟨⟨a, rfl, ha⟩, hp⟩
    exact ⟨a, c', ⟨ha, hencode a ▸ hp⟩, rfl, rfl⟩

/-- **Every request but a look ahead** gives out exactly the fields that it asks
for, with their octets passed. -/
theorem reads_request (hr : ¬r.IsPeek) :
    Reads r.read (fun f => f.request = r ∧ f.Writable) Field.encode := by
  cases r with
  | u8 =>
    refine reads_u8.field (k := .u8) (fun f => ?_) fun _ => rfl
    cases f <;> simp [Field.request, Field.Writable]
  | u32 =>
    refine reads_u32.field (k := .u32) (fun f => ?_) fun _ => rfl
    cases f <;> simp [Field.request, Field.Writable]
  | u64 =>
    refine reads_u64.field (k := .u64) (fun f => ?_) fun _ => rfl
    cases f <;> simp [Field.request, Field.Writable]
  | size =>
    refine reads_size.field (k := .size) (fun f => ?_) fun _ => rfl
    cases f <;> simp [Field.request, Field.Writable]
  | sized =>
    refine reads_sized.field (k := .sized) (fun f => ?_) fun _ => rfl
    cases f <;> simp [Field.request, Field.Writable]
  | raw count =>
    have htake : Reads (Reader.take count.toNat) (fun bs => bs.length = count.toNat) id :=
      fun _ _ _ => takeOr_eq_ok
    refine htake.field (k := .raw) (fun f => ?_) fun _ => rfl
    cases f with
    | raw bs =>
      simp only [Field.request, Field.Writable, Request.raw.injEq, Field.raw.injEq, exists_eq_left]
      constructor
      · rintro ⟨rfl, hbs⟩
        exact hbs.toNat_ofNat.symm
      · intro h
        exact ⟨by rw [h, UInt64.ofNat_toNat], show bs.length < _ from h ▸ count.toNat_lt⟩
    | _ => simp [Field.request]
  | peek offset => exact absurd ⟨offset, rfl⟩ hr

end Requests

/-! ### What a request passes when it fails -/

section Failing

variable {α β : Type} {c c' : Cursor} {r : Request} {e : Error}

/-- The number of octets that a request needs, if it is known before any octet is read. -/
def Request.need? : Request → Option Nat
  | .u8 => some 1
  | .u32 => some 4
  | .u64 => some 8
  | .raw count => some count.toNat
  | .peek offset => some (offset.toNat + 1)
  | .size | .sized => none

theorem map_eq_error {reader : Reader α} {mk : α → β} :
    (do return mk (← reader) : Reader β) c = (.error e, c') ↔ reader c = (.error e, c') := by
  rw [Reader.bind_eq_error]
  exact or_iff_left fun ⟨_, _, _, h⟩ => Reader.pure_ne_error h

/-- **A request for so many octets** fails where there are fewer, and passes none of them. -/
theorem read_eq_error_of_need {n : Nat} (hr : ¬r.IsPeek) (hn : r.need? = some n) :
    r.read c = (.error e, c') ↔ c.unread.length < n ∧ .endOfData = e ∧ c = c' := by
  cases r with
  | u8 =>
    obtain rfl := Option.some.inj hn
    rw [Nat.lt_one_iff, List.length_eq_zero_iff]
    exact map_eq_error.trans Reader.u8_eq_error
  | u32 =>
    obtain rfl := Option.some.inj hn
    exact map_eq_error.trans (map_eq_error.trans Reader.takeOr_eq_error)
  | u64 =>
    obtain rfl := Option.some.inj hn
    exact map_eq_error.trans (map_eq_error.trans Reader.takeOr_eq_error)
  | raw count =>
    obtain rfl := Option.some.inj hn
    exact map_eq_error.trans Reader.takeOr_eq_error
  | peek offset => exact absurd ⟨offset, rfl⟩ hr
  | size => cases hn
  | sized => cases hn

/-- What stands behind a mark is passed, or it is lacking and nothing is. -/
theorem passes_of_wideSize_eq_error {width least : Nat}
    (h : Reader.wideSize width least c = (.error e, c')) :
    ∃ bs, bs.length ≤ width ∧ c.Passes bs c' := by
  obtain h | ⟨bs, m, hbs, h⟩ := Reader.bind_eq_error.1 h
  · obtain ⟨-, -, rfl⟩ := Reader.takeOr_eq_error.1 h
    exact ⟨[], Nat.zero_le _, Cursor.passes_nil.2 rfl⟩
  · obtain ⟨hlength, hp⟩ := takeOr_eq_ok.1 hbs
    refine ⟨bs, Nat.le_of_eq hlength, ?_⟩
    split at h
    · obtain ⟨-, rfl⟩ := Reader.fail_eq_error.1 h
      exact hp
    · exact absurd h Reader.pure_ne_error

/-- **A count or length that is refused** has passed no more octets than the longest one has. -/
theorem passes_of_size_eq_error (h : Reader.size c = (.error e, c')) :
    ∃ bs, bs.length ≤ 9 ∧ c.Passes bs c' := by
  obtain h | ⟨mark, m, hm, h⟩ := Reader.bind_eq_error.1 h
  · obtain ⟨-, -, rfl⟩ := Reader.u8_eq_error.1 h
    exact ⟨[], Nat.zero_le _, Cursor.passes_nil.2 rfl⟩
  obtain ⟨-, hmark⟩ := (reads_u8 _ _ _).1 hm
  have hbehind : ∃ bs, bs.length ≤ 8 ∧ m.Passes bs c' := by
    split at h
    · exact absurd h Reader.pure_ne_error
    split at h
    · obtain ⟨bs, hbs, hp⟩ := passes_of_wideSize_eq_error h
      exact ⟨bs, Nat.le_trans hbs (by decide), hp⟩
    split at h
    · obtain ⟨bs, hbs, hp⟩ := passes_of_wideSize_eq_error h
      exact ⟨bs, Nat.le_trans hbs (by decide), hp⟩
    · exact passes_of_wideSize_eq_error h
  obtain ⟨bs, hbs, hp⟩ := hbehind
  exact ⟨mark :: bs, Nat.succ_le_succ hbs, passes_mark.2 ⟨m, hmark, hp⟩⟩

theorem length_size_le (v : UInt64) : (Wire.size v).length ≤ 9 := by
  rw [Wire.size]
  repeat' split
  all_goals simp [length_littleEndian]

/-- Octets behind a length that are not all there are not passed, but the length is. -/
theorem passes_of_sized_eq_error (h : Reader.sized c = (.error e, c')) :
    ∃ bs, bs.length ≤ 9 ∧ c.Passes bs c' := by
  obtain h | ⟨n, m, hm, h⟩ := Reader.bind_eq_error.1 h
  · exact passes_of_size_eq_error h
  · obtain ⟨-, -, rfl⟩ := Reader.takeOr_eq_error.1 h
    exact ⟨Wire.size n, length_size_le n, passes_of_size hm⟩

theorem passes_of_read_eq_error (hn : r.need? = none) (h : r.read c = (.error e, c')) :
    ∃ bs, bs.length ≤ 9 ∧ c.Passes bs c' := by
  cases r with
  | size => exact passes_of_size_eq_error (map_eq_error.1 h)
  | sized => exact passes_of_sized_eq_error (map_eq_error.1 h)
  | _ => cases hn

/-- **Every failure of a read** is that octets are wrong or lacking. -/
theorem local_request (hr : ¬r.IsPeek) : Local r.read := by
  cases r with
  | u8 => exact Local.u8.bind fun _ => .pure _
  | u32 => exact Local.u32.bind fun _ => .pure _
  | u64 => exact Local.u64.bind fun _ => .pure _
  | size => exact Local.size.bind fun _ => .pure _
  | sized => exact Local.sized.bind fun _ => .pure _
  | raw count => exact (Local.take _).bind fun _ => .pure _
  | peek offset => exact absurd ⟨offset, rfl⟩ hr

end Failing

/-! ### Looking ahead -/

section Peek

variable {c : Cursor} {offset : UInt64}

/-- **The largest offset**, with no number of 64 bits above it. -/
def maxOffset : UInt64 := 0xffffffffffffffff

theorem toNat_add_one (h : offset ≠ maxOffset) : (offset + 1).toNat = offset.toNat + 1 := by
  have hne : offset.toNat ≠ 0xffffffffffffffff := fun he => h (UInt64.toNat_inj.1 he)
  have hlt := offset.toNat_lt
  have hone : (1 : UInt64).toNat = 1 := rfl
  rw [UInt64.toNat_add, hone, Nat.mod_eq_of_lt (by omega)]

/-- What is not there to be looked at is lacking. -/
theorem peek_eq_error {c' : Cursor} {e : Error} (h : Reader.peek offset c = (.error e, c')) :
    .endOfData = e := by
  rw [Reader.peek] at h
  split at h
  · cases h
  · cases h
    rfl

/-- **A look ahead** finds the octet at its offset or fails, for every offset
but the largest one. -/
theorem read_peek (h : offset ≠ maxOffset) : (Request.peek offset).read c =
    ((c.unread[offset.toNat]?.map Field.u8).elim (.error .endOfData) .ok, c) := by
  have hne : offset + 1 ≠ 0 := by
    intro he
    have := congrArg UInt64.toNat he
    rw [toNat_add_one h] at this
    cases this
  have hholds : c.holds (offset + 1).toNat = true ↔ offset.toNat < c.unread.length := by
    rw [c.holds_iff, toNat_add_one h]
    exact Nat.succ_le_iff
  by_cases hlt : offset.toNat < c.unread.length
  · have hlook : Reader.peek offset c = (.ok c.unread[offset.toNat], c) := by
      rw [Reader.peek, if_pos (hholds.2 hlt), if_neg hne]
      simp [hlt]
    rw [Request.read, Reader.bind_of_ok hlook, List.getElem?_eq_getElem hlt]
    rfl
  · have hlook : Reader.peek offset c = (.error .endOfData, c) := by
      rw [Reader.peek, if_neg fun hh => hlt (hholds.1 hh)]
    rw [Request.read, Reader.bind_of_error hlook, List.getElem?_eq_none (Nat.le_of_not_lt hlt)]
    rfl

/-- **A look with the largest offset** is never refused. -/
theorem read_peek_maxOffset :
    (Request.peek maxOffset).read c = (.ok (.u8 (c.passed.headD 0)), c) := by
  have hlook : Reader.peek maxOffset c = (.ok (c.passed.headD 0), c) := by
    have hzero : maxOffset + 1 = 0 := by decide
    have hholds : c.holds (0 : UInt64).toNat = true := (c.holds_iff 0).2 (Nat.zero_le _)
    rw [Reader.peek, hzero, if_pos hholds, if_pos rfl]
  rw [Request.read, Reader.bind_of_ok hlook]
  rfl

end Peek

/-! ### Answers -/

/-- **What a request may be answered** at a position in given octets, and where that leads. -/
inductive Answers (data : Bytes) (p : Nat) : Request → Except Error Field → Nat → Prop
  /-- A field that stands next is given out and passed. -/
  | read {f : Field} : f.Writable → f.encode <+: data.drop p →
    Answers data p f.request (.ok f) (p + f.encode.length)
  /-- An octet further on is shown, and nothing is passed. -/
  | look {offset : UInt64} {b : UInt8} : data[p + offset.toNat]? = some b →
    Answers data p (.peek offset) (.ok (.u8 b)) p
  /-- There are fewer octets than needed, and nothing is passed. -/
  | lack {r : Request} {n : Nat} : r.need? = some n → data.length < p + n →
    Answers data p r (.error .endOfData) p
  /-- There is no such count or length, or it counts more octets than there are. What was passed of
  it stays passed. -/
  | refuse {r : Request} {e : Error} {q : Nat} : r.need? = none →
    (∀ f : Field, f.request = r → f.Writable → ¬f.encode <+: data.drop p) →
    e.kind = .decodeError → p ≤ q → q ≤ p + 9 → q ≤ data.length → Answers data p r (.error e) q

/-- **Answers to requests one after the other**, with the position behind each of them. -/
inductive AnswersAll (data : Bytes) :
    Nat → List Request → List (Except Error Field × Nat) → Prop
  | nil {p : Nat} : AnswersAll data p [] []
  | cons {p q : Nat} {r : Request} {rest : List Request} {o : Except Error Field}
    {answers : List (Except Error Field × Nat)} : Answers data p r o q →
    AnswersAll data q rest answers → AnswersAll data p (r :: rest) ((o, q) :: answers)

section Session

variable {data : Bytes} {c : Cursor} {r : Request} {requests : List Request}

/-- **Every request passes some octets**, if only none, and goes on from there. -/
theorem exists_passes_read (r : Request) (c : Cursor) : ∃ bs, c.Passes bs (r.read c).2 := by
  by_cases hr : r.IsPeek
  · obtain ⟨offset, rfl⟩ := hr
    refine ⟨[], Cursor.passes_nil.2 ?_⟩
    by_cases ho : offset = maxOffset
    · rw [ho, read_peek_maxOffset]
    · rw [read_peek ho]
  rcases h : r.read c with ⟨e | f, c'⟩
  · cases hn : r.need? with
    | none =>
      obtain ⟨bs, -, hp⟩ := passes_of_read_eq_error hn h
      exact ⟨bs, hp⟩
    | some n =>
      obtain ⟨-, -, rfl⟩ := (read_eq_error_of_need hr hn).1 h
      exact ⟨[], Cursor.passes_nil.2 rfl⟩
  · exact ⟨f.encode, ((reads_request hr _ _ _).1 h).2⟩

/-- **A step of a session**: a request is answered as the octets tell, unless it is the
look ahead that is never refused. -/
theorem answers_read (h : c.In data) (hr : r ≠ .peek maxOffset) :
    Answers data c.position r (r.read c).1 (r.read c).2.position := by
  by_cases hpeek : r.IsPeek
  · obtain ⟨offset, rfl⟩ := hpeek
    rw [read_peek fun ho => hr (ho ▸ rfl), h.unread_eq, List.getElem?_drop]
    cases hb : data[c.position + offset.toNat]? with
    | some b => exact .look hb
    | none => exact .lack rfl (Nat.lt_succ_of_le (List.getElem?_eq_none_iff.1 hb))
  rcases hread : r.read c with ⟨e | f, c'⟩
  · cases hn : r.need? with
    | some n =>
      obtain ⟨hlt, rfl, rfl⟩ := (read_eq_error_of_need hpeek hn).1 hread
      refine .lack hn ?_
      rw [← h.position_add_remaining]
      exact Nat.add_lt_add_left hlt _
    | none =>
      obtain ⟨bs, hbs, hp⟩ := passes_of_read_eq_error hn hread
      have hposition := hp.position_eq
      have hbounds := (hp.in h).position_add_remaining
      refine .refuse (q := c'.position) hn (fun f hf hw hprefix => ?_)
        ((local_request hpeek).kind hread) ?_ ?_ ?_
      · -- a field that stands there would have been read
        obtain ⟨m, hm⟩ := Cursor.exists_passes h hprefix
        rw [(reads_request hpeek f c m).2 ⟨⟨hf, hw⟩, hm⟩] at hread
        cases hread
      all_goals omega
  · obtain ⟨⟨rfl, hw⟩, hp⟩ := (reads_request hpeek _ _ _).1 hread
    rw [hp.position_eq]
    exact .read hw (hp.prefix_drop h)

/-- An octet that is shown is among those given. -/
theorem Answers.lt_of_peek {p q : Nat} {offset : UInt64} {f : Field}
    (h : Answers data p (.peek offset) (.ok f) q) : p + offset.toNat < data.length := by
  generalize hr : Request.peek offset = r at h
  cases h with
  | read => exact absurd ⟨offset, hr.symm⟩ (Field.not_isPeek_request _)
  | look hb =>
    cases hr
    exact (List.getElem?_eq_some_iff.1 hb).1

/-- **The look ahead that is never refused** should have been: no octets reach so far. -/
theorem not_answers_read_peek_maxOffset (hdata : Countable data) :
    ¬Answers data c.position (.peek maxOffset) ((Request.peek maxOffset).read c).1
      ((Request.peek maxOffset).read c).2.position := by
  rw [read_peek_maxOffset]
  intro h
  have hlt := h.lt_of_peek
  have hmax : maxOffset.toNat = UInt64.size - 1 := rfl
  have hdata : data.length < UInt64.size := hdata
  omega

/-- **A session answers all its requests** as the octets tell, wherever it starts. -/
theorem answersAll_session (h : c.In data) (hr : ∀ r ∈ requests, r ≠ .peek maxOffset) :
    AnswersAll data c.position requests
      ((session requests c).map fun step => (step.1, step.2.position)) := by
  induction requests generalizing c with
  | nil => exact .nil
  | cons r rest ih =>
    obtain ⟨bs, hp⟩ := exists_passes_read r c
    exact .cons (answers_read h (hr r List.mem_cons_self))
      (ih (hp.in h) fun r' hr' => hr r' (List.mem_cons_of_mem _ hr'))

theorem ne_peek_of_answersAll (hdata : Countable data)
    (h : AnswersAll data c.position requests
      ((session requests c).map fun step => (step.1, step.2.position))) :
    ∀ r ∈ requests, r ≠ .peek maxOffset := by
  induction requests generalizing c with
  | nil => exact fun _ h => nomatch h
  | cons r rest ih =>
    cases h with
    | cons hanswer hrest =>
      refine List.forall_mem_cons.2 ⟨?_, ih hrest⟩
      rintro rfl
      exact not_answers_read_peek_maxOffset hdata hanswer

/-! ### Sessions -/

/-- **What every request leaves true** of its outcome is true of all steps of a session. -/
theorem forall_mem_session {P : Except Error Field × Cursor → Prop}
    (hP : ∀ (r : Request) {c : Cursor}, c.In data → P (r.read c)) (h : c.In data) :
    ∀ step ∈ session requests c, P step := by
  induction requests generalizing c with
  | nil => exact fun _ h => nomatch h
  | cons r rest ih =>
    obtain ⟨bs, hp⟩ := exists_passes_read r c
    exact List.forall_mem_cons.2 ⟨hP r h, ih (hp.in h)⟩

/-- The cursors of a session are in the octets. -/
theorem in_of_mem_session {step : Except Error Field × Cursor} (h : c.In data)
    (hstep : step ∈ session requests c) : step.2.In data := by
  refine forall_mem_session (P := fun step => step.2.In data) (fun r c h => ?_) h step hstep
  obtain ⟨bs, hp⟩ := exists_passes_read r c
  exact hp.in h

/-- **Every failure in a session** is that octets are wrong or lacking. -/
theorem kind_of_mem_session {step : Except Error Field × Cursor} {e : Error} (h : c.In data)
    (hstep : step ∈ session requests c) (he : step.1 = .error e) : e.kind = .decodeError := by
  refine forall_mem_session (P := fun step => step.1 = .error e → e.kind = .decodeError)
    (fun r c _ hread => ?_) h step hstep he
  by_cases hr : r.IsPeek
  · obtain ⟨offset, rfl⟩ := hr
    exact peek_eq_error (map_eq_error.1 (Prod.ext hread rfl)) ▸ rfl
  · exact (local_request hr).kind (Prod.ext hread rfl)

/-- **The positions of a session** never decrease. -/
theorem pairwise_position_session (requests : List Request) (c : Cursor) :
    (c.position :: (session requests c).map fun step => step.2.position).Pairwise (· ≤ ·) := by
  induction requests generalizing c with
  | nil => exact List.pairwise_singleton _ _
  | cons r rest ih =>
    obtain ⟨bs, hp⟩ := exists_passes_read r c
    have hle : c.position ≤ (r.read c).2.position := hp.position_eq ▸ Nat.le_add_right _ _
    have hrest := ih (r.read c).2
    refine List.pairwise_cons.2 ⟨List.forall_mem_cons.2 ⟨hle, fun q hq => ?_⟩, hrest⟩
    exact Nat.le_trans hle ((List.pairwise_cons.1 hrest).1 q hq)

/-- **Octets of a known width** are read as a request for so many octets is, with the same outcome
and the same cursor behind it, so what a session is said to do goes for them as well. -/
theorem read_raw_eq_octets (count : UInt64) (c : Cursor) :
    (Request.raw count).read c =
      ((Reader.octets count.toNat c).1.map fun bs => Field.raw bs.toList,
        (Reader.octets count.toNat c).2) := by
  rcases h : Reader.octets count.toNat c with ⟨e | bs, c'⟩
  · have htake : Reader.take count.toNat c = (.error e, c') := by rw [Reader.take_eq_octets, h]; rfl
    exact Reader.bind_of_error htake
  · exact Reader.bind_of_ok (Reader.octets_eq_ok.1 h)

/-- **A session looks at nothing outside its octets**, whatever is asked for, in whatever
order, and whatever failed before. No position is in front of an earlier one or behind the
last octet, what remains is what stands behind the position, and all failures are for the
octets. Every request is answered as the octets tell, if none of them looks ahead by the
largest offset; one that does is not. -/
theorem session_within (data : Bytes) (requests : List Request) :
    let steps := session requests (Cursor.start data)
    let answers := steps.map fun step => (step.1, step.2.position)
    (0 :: steps.map fun step => step.2.position).Pairwise (· ≤ ·) ∧
      (∀ step ∈ steps, step.2.position + step.2.remaining = data.length ∧
        step.2.unread = data.drop step.2.position ∧
          ∀ e, step.1 = .error e → e.kind = .decodeError) ∧
      ((∀ r ∈ requests, r ≠ .peek maxOffset) → AnswersAll data 0 requests answers) ∧
      (Countable data → AnswersAll data 0 requests answers →
        ∀ r ∈ requests, r ≠ .peek maxOffset) := by
  intro steps answers
  have hstart := Cursor.start_in data
  refine ⟨pairwise_position_session requests (Cursor.start data), fun step hstep => ?_,
    answersAll_session hstart, fun hdata => ne_peek_of_answersAll (c := Cursor.start data) hdata⟩
  have hin := in_of_mem_session hstart hstep
  exact ⟨hin.position_add_remaining, hin.unread_eq, fun e he => kind_of_mem_session hstart hstep he⟩

/-- A count that lacks octets keeps its mark, and the session goes on behind it; neither a look
ahead nor octets that are not there move anything. -/
theorem session_within_lacking :
    let data : Bytes := [0xfe, 0x01, 0xaa]
    let requests : List Request := [.size, .peek 1, .peek 2, .raw 0xffffffffffffffff, .u8]
    Countable data ∧ (∀ r ∈ requests, r ≠ .peek maxOffset) ∧
      AnswersAll data 0 requests [(.error .endOfData, 1), (.ok (.u8 0xaa), 1),
        (.error .endOfData, 1), (.error .endOfData, 1), (.ok (.u8 0x01), 2)] := by
  intro data requests
  have hdata : Countable data := by decide
  have hr : ∀ r ∈ requests, r ≠ .peek maxOffset := by decide
  obtain ⟨-, -, hanswers, hconverse⟩ := session_within data requests
  exact ⟨hdata, hconverse hdata (hanswers hr), hanswers hr⟩

/-- A look with the largest offset shows the octet that was just passed, where there is none to be
seen. -/
theorem session_peek_maxOffset :
    let data : Bytes := [0xaa, 0xbb]
    let requests : List Request := [.u8, .peek maxOffset]
    let passed : Cursor := { passed := [0xaa], unread := [0xbb] }
    session requests (Cursor.start data) = [(.ok (.u8 0xaa), passed), (.ok (.u8 0xaa), passed)] ∧
      data.length < passed.position + maxOffset.toNat ∧
      ¬AnswersAll data 0 requests [(.ok (.u8 0xaa), 1), (.ok (.u8 0xaa), 1)] := by
  intro data requests passed
  refine ⟨rfl, by decide, fun h => ?_⟩
  exact ne_peek_of_answersAll (c := Cursor.start data) (by decide) h (.peek maxOffset)
    (by decide) rfl

end Session

end WitnessSigning.Wire
