import WitnessSigning.Proofs.Wire.Answering

/-!
# Streams of fields

Fields written one behind the other are read back one after the other, by the requests for fields
of their kinds, and what stands behind the last one is left unread. A field shows by itself where
it ends, so nothing is needed of what comes next; and a session that reads fields, without looking
ahead, has passed just the octets that are written for them
(`WitnessSigning.Wire.session_eq_ok_iff`).

Of the six kinds of field, counts and lengths are the one that could be written in
several ways. Four widths hold the small numbers, and only the least of them is read: in
a wider one the number is refused (`WitnessSigning.Wire.size_overlong`), so that what was
read as a count is what is written for it.
-/

namespace WitnessSigning.Wire

/-! ### Reading a stream back -/

/-- **The cursor behind a session.** -/
def behind (requests : List Request) (c : Cursor) : Cursor :=
  ((session requests c).map Prod.snd).getLastD c

section Stream

variable {c c' : Cursor} {r : Request} {rest requests : List Request} {fields : List Field}

@[simp] theorem behind_nil : behind [] c = c := rfl

@[simp] theorem behind_cons : behind (r :: rest) c = behind rest (r.read c).2 :=
  List.getLastD_cons ..

/-- What is asked for later is read behind the session. -/
theorem session_append (requests later : List Request) (c : Cursor) :
    session (requests ++ later) c = session requests c ++ session later (behind requests c) := by
  induction requests generalizing c with
  | nil => rfl
  | cons r rest ih => rw [List.cons_append, session, ih, behind_cons, session, List.cons_append]

/-- **A session reads a stream**, if it does not look ahead, exactly if it asks for the fields that
stand there. -/
theorem session_eq_ok_iff (hr : ∀ r ∈ requests, ¬r.IsPeek) :
    (session requests c).map Prod.fst = fields.map .ok ∧ behind requests c = c' ↔
      (requests = fields.map Field.request ∧ ∀ f ∈ fields, f.Writable) ∧
        c.Passes (encodeAll fields) c' := by
  induction requests generalizing c fields with
  | nil =>
    cases fields with
    | nil => simpa [session, encodeAll] using Cursor.passes_nil.symm
    | cons f fields => simp [session]
  | cons r rest ih =>
    obtain ⟨hfirst, hrest⟩ := List.forall_mem_cons.1 hr
    cases fields with
    | nil => simp [session]
    | cons f fields =>
      rw [session, List.map_cons, List.map_cons, List.map_cons, List.cons.injEq, List.cons.injEq,
        behind_cons, and_assoc, ih hrest, List.forall_mem_cons]
      constructor
      · rintro ⟨hf, ⟨hrequests, hws⟩, hps⟩
        obtain ⟨⟨hrequest, hw⟩, hp⟩ := (reads_request hfirst f c (r.read c).2).1 (Prod.ext hf rfl)
        exact ⟨⟨⟨hrequest.symm, hrequests⟩, hw, hws⟩, Cursor.passes_append.2 ⟨_, hp, hps⟩⟩
      · rintro ⟨⟨⟨hrequest, hrequests⟩, hw, hws⟩, hp⟩
        obtain ⟨m, hp, hps⟩ := Cursor.passes_append.1 hp
        have hread : r.read c = (.ok f, m) :=
          (reads_request hfirst f c m).2 ⟨⟨hrequest.symm, hw⟩, hp⟩
        rw [hread]
        exact ⟨rfl, ⟨hrequests, hws⟩, hps⟩

end Stream

/-! ### Counts in too many octets -/

section Overlong

variable {passed octets suffix : Bytes} {width least : Nat}

/-- **What stands behind a mark** is refused with all its octets passed if fewer would do. -/
theorem wideSize_of_lt (hwidth : octets.length = width) (hlt : ofLittleEndian octets < least) :
    Reader.wideSize width least ⟨passed, octets ++ suffix⟩ =
      (.error .overlongSize, ⟨octets.reverse ++ passed, suffix⟩) := by
  have htake : Reader.take width ⟨passed, octets ++ suffix⟩ =
      (.ok octets, ⟨octets.reverse ++ passed, suffix⟩) :=
    takeOr_eq_ok.2 ⟨hwidth, rfl, rfl⟩
  rw [Reader.wideSize, Reader.bind_of_ok htake, if_pos hlt]
  rfl

/-- A count that takes up fewer octets is below the least one that would not. -/
theorem lt_of_length_size_lt {v : Nat} (hv : v < UInt64.size) {n : Nat}
    (hn : (n, least) ∈ [(3, 0xfd), (5, 0x10000), (9, 0x100000000)])
    (hlong : (size (UInt64.ofNat v)).length < n) : v < least := by
  simp only [List.mem_cons, Prod.mk.injEq, List.not_mem_nil, or_false] at hn
  rw [size, UInt64.toNat_ofNat_of_lt' hv] at hlong
  repeat' split at hlong
  all_goals
    simp only [List.length_cons, List.length_nil, length_littleEndian] at hlong
    omega

/-- **A number in more octets than it needs** is refused, whichever of the marks
it stands behind. -/
theorem size_overlong {mark : UInt8}
    (hmark : (mark, octets.length) ∈ [((0xfd : UInt8), 2), (0xfe, 4), (0xff, 8)])
    (hlong : (size (UInt64.ofNat (ofLittleEndian octets))).length < octets.length + 1) :
    Reader.size ⟨passed, mark :: (octets ++ suffix)⟩ =
      (.error .overlongSize, ⟨octets.reverse ++ mark :: passed, suffix⟩) := by
  have hu8 : Reader.u8 ⟨passed, mark :: (octets ++ suffix)⟩ =
      (.ok mark, ⟨mark :: passed, octets ++ suffix⟩) := rfl
  rw [Reader.size, Reader.bind_of_ok hu8]
  have hbound := ofLittleEndian_lt octets
  simp only [List.mem_cons, Prod.mk.injEq, List.not_mem_nil, or_false] at hmark
  -- each mark has its own width and its own least number
  rcases hmark with ⟨rfl, hwidth⟩ | ⟨rfl, hwidth⟩ | ⟨rfl, hwidth⟩ <;>
    rw [hwidth] at hbound hlong
  · exact wideSize_of_lt hwidth (lt_of_length_size_lt (Nat.lt_trans hbound (by decide))
      (by decide) hlong)
  · exact wideSize_of_lt hwidth (lt_of_length_size_lt (Nat.lt_trans hbound (by decide))
      (by decide) hlong)
  · exact wideSize_of_lt hwidth (lt_of_length_size_lt hbound (by decide) hlong)

end Overlong

/-! ### Streams and counts -/

/-- **A stream of fields is read back**, and all that stands behind it is left unread and
is what later requests are answered from. And a count is read exactly if what is passed is
written for it, so that a number in more octets than it needs is refused behind each of
the marks, with these octets passed. -/
theorem session_encodeAll {fields : List Field} (hf : ∀ f ∈ fields, f.Writable)
    (passed suffix : Bytes) :
    let requests := fields.map Field.request
    let c : Cursor := { passed, unread := encodeAll fields ++ suffix }
    let c' : Cursor := { passed := (encodeAll fields).reverse ++ passed, unread := suffix }
    ((session requests c).map Prod.fst = fields.map .ok ∧ behind requests c = c' ∧
        ∀ later, session (requests ++ later) c = session requests c ++ session later c') ∧
      (∀ (v : UInt64) (c c' : Cursor), Reader.size c = (.ok v, c') ↔ c.Passes (size v) c') ∧
      ∀ (mark : UInt8) (octets passed suffix : Bytes),
        (mark, octets.length) ∈ [((0xfd : UInt8), 2), (0xfe, 4), (0xff, 8)] →
        (size (UInt64.ofNat (ofLittleEndian octets))).length < octets.length + 1 →
        Reader.size { passed, unread := mark :: (octets ++ suffix) } =
          (.error .overlongSize,
            { passed := octets.reverse ++ mark :: passed, unread := suffix }) := by
  intro requests c c'
  refine ⟨?_, fun v c c' => ?_, fun mark octets passed suffix => size_overlong⟩
  · have hlook : ∀ r ∈ requests, ¬r.IsPeek := by
      intro r hr
      obtain ⟨f, -, rfl⟩ := List.mem_map.1 hr
      exact f.not_isPeek_request
    obtain ⟨hsteps, hbehind⟩ : (session requests c).map Prod.fst = fields.map .ok ∧
        behind requests c = c' :=
      (session_eq_ok_iff hlook).2 ⟨⟨rfl, hf⟩, rfl, rfl⟩
    exact ⟨hsteps, hbehind, fun later => hbehind ▸ session_append requests later c⟩
  · rw [reads_size, true_and]

/-- Fields of all kinds, with counts on both sides of each change of width, and behind them a number
that would have done without its mark. -/
theorem session_encodeAll_widths :
    let fields : List Field := [.u8 0x7f, .u32 0xdeadbeef, .u64 0x0123456789abcdef, .size 0xfc,
      .size 0xfd, .size 0xffff, .size 0x10000, .size 0xffffffff, .size 0x100000000,
      .raw [0x01, 0x02], .sized [], .sized [0x03]]
    let passed := (encodeAll fields).reverse
    let suffix : Bytes := [0xfd, 0xfc, 0x00]
    (∀ f ∈ fields, f.Writable) ∧
      (session (fields.map Field.request)
          (Cursor.start (encodeAll fields ++ suffix))).map Prod.fst = fields.map .ok ∧
      behind (fields.map Field.request) (Cursor.start (encodeAll fields ++ suffix)) =
        { passed, unread := suffix } ∧
      Reader.size { passed, unread := suffix } =
        (.error .overlongSize, { passed := 0x00 :: 0xfc :: 0xfd :: passed, unread := [] }) := by
  intro fields passed suffix
  have hf : ∀ f ∈ fields, f.Writable := by decide
  obtain ⟨⟨hsteps, hbehind, -⟩, -, hoverlong⟩ := session_encodeAll hf [] suffix
  refine ⟨hf, hsteps, ?_, hoverlong 0xfd [0xfc, 0x00] passed [] (by decide) (by decide)⟩
  rw [List.append_nil] at hbehind
  exact hbehind

end WitnessSigning.Wire
