import WitnessSigning.Proofs.Wire.Reading

/-!
# What readers look at

A reader does not know what stands behind the octets that it passes. The only outcome that depends
on it is that octets are lacking (`WitnessSigning.Wire.Lacking`): every other one, a success as well
as a refusal, stays as it is with more octets behind those unread, and these stay unread. That is
`WitnessSigning.Wire.Local`, which also says of which sort the failures are. Readers one behind the
other are local if each of them is (`WitnessSigning.Wire.Local.bind`), and so are lists of items
behind their count, whatever the count says (`WitnessSigning.Wire.Local.counted`).

A reader that looks ahead is not local by itself; where it is used, the reads behind it have to lack
octets whenever it has too few to look at.
-/

namespace WitnessSigning

/-- The two failures that more octets could mend. -/
def Error.LacksOctets (e : Error) : Prop :=
  e = .endOfData ∨ e = .lengthBeyondData

theorem Error.LacksOctets.kind {e : Error} (h : e.LacksOctets) : e.kind = .decodeError := by
  rcases h with rfl | rfl <;> rfl

namespace Wire

/-! ### More octets behind a cursor -/

/-- **A cursor with more octets behind those unread.** -/
def Cursor.extend (c : Cursor) (xs : Bytes) : Cursor :=
  { c with unread := c.unread ++ xs }

namespace Cursor

variable {c c' : Cursor} {bs xs : Bytes}

@[simp] theorem unread_extend : (c.extend xs).unread = c.unread ++ xs := rfl

theorem start_extend : (start bs).extend xs = start (bs ++ xs) := rfl

/-- A passage can still be made with more octets behind it. -/
theorem Passes.extend (h : c.Passes bs c') (xs : Bytes) :
    (c.extend xs).Passes bs (c'.extend xs) := by
  refine ⟨?_, h.2⟩
  rw [unread_extend, unread_extend, h.1, List.append_assoc]

end Cursor

/-! ### Local readers -/

variable {α β : Type}

/-- **The outcome that octets are lacking.** -/
def Lacking (outcome : Except Error α) : Prop :=
  ∃ e, outcome = .error e ∧ e.LacksOctets

theorem not_lacking_ok {a : α} : ¬Lacking (.ok a) :=
  fun ⟨_, h, _⟩ => nomatch h

theorem lacking_error {e : Error} : Lacking (.error e : Except Error α) ↔ e.LacksOctets :=
  ⟨fun ⟨_, he, h⟩ => by cases he; exact h, fun h => ⟨e, rfl, h⟩⟩

/-- **A reader that looks no further than it passes.** -/
structure Local (r : Reader α) : Prop where
  /-- It fails for what the octets are, and for nothing else. -/
  kind : ∀ {c c' : Cursor} {e : Error}, r c = (.error e, c') → e.kind = .decodeError
  /-- Unless it lacks octets, it comes to the same with more of them. -/
  settled : ∀ {c c' : Cursor} {o : Except Error α}, r c = (o, c') → ¬Lacking o →
    ∀ xs, r (c.extend xs) = (o, c'.extend xs)

namespace Local

theorem pure (a : α) : Local (Pure.pure a : Reader α) where
  kind h := absurd h Reader.pure_ne_error
  settled := by
    rintro c c' o h - xs
    cases h
    rfl

theorem fail {e : Error} (he : e.kind = .decodeError) : Local (Reader.fail e : Reader α) where
  kind h := (Reader.fail_eq_error.1 h).1 ▸ he
  settled := by
    rintro c c' o h - xs
    cases h
    rfl

/-- **Readers one behind the other.** -/
theorem bind {r : Reader α} {f : α → Reader β} (hr : Local r) (hf : ∀ a, Local (f a)) :
    Local (r >>= f) where
  kind h := by
    obtain h | ⟨a, m, -, h⟩ := Reader.bind_eq_error.1 h
    · exact hr.kind h
    · exact (hf a).kind h
  settled := by
    intro c c' o h ho xs
    rcases hc : r c with ⟨e | a, m⟩
    · rw [Reader.bind_of_error hc] at h
      cases h
      -- one failure, as an outcome of either type
      have he : ¬Lacking (.error e : Except Error α) :=
        fun h => ho (lacking_error.2 (lacking_error.1 h))
      exact Reader.bind_of_error (hr.settled hc he xs)
    · -- a read that succeeded lacks nothing, so the second one starts at the same place
      rw [Reader.bind_of_ok hc] at h
      rw [Reader.bind_of_ok (hr.settled hc not_lacking_ok xs)]
      exact (hf a).settled h ho xs

theorem ite {p : Prop} [Decidable p] {r r' : Reader α} (h : Local r) (h' : Local r') :
    Local (if p then r else r') := by
  split
  · exact h
  · exact h'

/-- **A reader that accepts what a writer writes is local** if all that it can lack is octets. -/
theorem of_reads {r : Reader α} {Writable : α → Prop} {write : α → Bytes}
    (h : Reads r Writable write)
    (he : ∀ {c c' : Cursor} {e : Error}, r c = (.error e, c') → e.LacksOctets) : Local r where
  kind hc := (he hc).kind
  settled := by
    rintro c c' (e | a) hc ho xs
    · exact absurd (lacking_error.2 (he hc)) ho
    · obtain ⟨ha, hp⟩ := (h _ _ _).1 hc
      exact (h _ _ _).2 ⟨ha, hp.extend xs⟩

/-! ### Fields -/

theorem takeOr {e : Error} (he : e.LacksOctets) (n : Nat) : Local (Reader.takeOr e n) :=
  of_reads (fun _ _ _ => takeOr_eq_ok) fun h => (Reader.takeOr_eq_error.1 h).2.1 ▸ he

theorem take (n : Nat) : Local (Reader.take n) :=
  takeOr (.inl rfl) n

theorem u8 : Local Reader.u8 :=
  of_reads reads_u8 fun h => .inl (Reader.u8_eq_error.1 h).2.1.symm

theorem octets (n : Nat) : Local (Reader.octets n) :=
  of_reads (reads_octets n) fun h => .inl (Reader.octets_eq_error.1 h).2.1.symm

theorem u32 : Local Reader.u32 :=
  (take 4).bind fun _ => .pure _

theorem u64 : Local Reader.u64 :=
  (take 8).bind fun _ => .pure _

/-- A number that fewer octets would hold is refused whatever stands behind it. -/
theorem wideSize (width least : Nat) : Local (Reader.wideSize width least) := by
  refine (take width).bind fun bs => ?_
  exact .ite (.fail rfl) (.pure _)

/-- A count or length. -/
theorem size : Local Reader.size := by
  refine u8.bind fun mark => ?_
  exact .ite (.pure _) (.ite (wideSize 2 _) (.ite (wideSize 4 _) (wideSize 8 _)))

/-- Octets behind their length, whatever the length says. -/
theorem sized : Local Reader.sized :=
  size.bind fun n => takeOr (.inr rfl) n.toNat

/-- **So many items**, however many are asked for. -/
theorem many {item : Reader α} (h : Local item) (n : Nat) (done : List α) :
    Local (Reader.many item n done) := by
  induction n generalizing done with
  | zero => exact .pure done.reverse
  | succ n ih => exact h.bind fun a => ih (a :: done)

/-- **Items behind their count**, whatever the count says. -/
theorem counted {item : Reader α} (h : Local item) : Local (Reader.counted item) :=
  size.bind fun n => h.many n.toNat []

end Local

/-! ### Counts that lack octets -/

namespace Reader

variable {item : Reader α} {c : Cursor}

/-- There is no count where there are no octets. -/
theorem counted_of_unread_eq_nil (hc : c.unread = []) : counted item c = (.error .endOfData, c) :=
  bind_of_error (bind_of_error (u8_eq_error.2 ⟨hc, rfl, rfl⟩))

/-- There are no items behind a count of none. -/
theorem counted_of_unread_eq_zero {rest : Bytes} (hc : c.unread = 0 :: rest) :
    counted item c = (.ok [], c.advance 1) := by
  have hsize : size c = (.ok 0, c.advance 1) :=
    size_of_passes (Cursor.passes_iff_advance.2 ⟨by rw [hc]; rfl, rfl⟩)
  exact (bind_of_ok hsize).trans rfl

end Reader

end Wire

end WitnessSigning
