import WitnessSigning.Error

/-!
# Looking at octets by their places

A parser of octets that nobody has checked knows how many there are, and has to ask for each of
them by its place. Here such a parser is a tree (`WitnessSigning.Inspection`): at every node a
query, and below it how it goes on with each answer. So it cannot know an octet that it has not
asked for, and what it asks for next may depend on all answers before.

There are two ways to run it. One takes the octets for what they are and stops at a query that has
no answer in them (`WitnessSigning.Inspection.run?`). The other one stops for nothing: it is
answered from a memory in which the octets stand with anything behind them, and a size from which
too much is taken wraps around (`WitnessSigning.Memory`). The parsers that can be trusted are
those for which both come to the same end, and the first way finds them: if it does not stop, then
no query of the second one is about anything outside the octets, whatever stands there
(`WitnessSigning.Inspection.run?_eq_some_iff`).
-/

namespace WitnessSigning

/-! ### Queries -/

/-- **What can be asked** of octets and their number. -/
inductive Query where
  /-- The octet in a place. -/
  | octet (place : Nat)
  /-- All octets of a range. -/
  | range (start length : Nat)
  /-- What is left of a size without a part of it. -/
  | difference (size part : Nat)
  deriving DecidableEq, Repr

namespace Query

/-- The type of the answers to a query. -/
abbrev Answer : Query → Type
  | octet _ => UInt8
  | range _ _ => Bytes
  | difference _ _ => Nat

/-- **A query is within** octets of a given number if its places are, and if no more
is taken from a size than there is. -/
def Within (length : Nat) : Query → Prop
  | octet place => place < length
  | range start count => start + count ≤ length
  | difference size part => part ≤ size

instance (length : Nat) : DecidablePred (Within length)
  | octet place => inferInstanceAs (Decidable (place < length))
  | range start count => inferInstanceAs (Decidable (start + count ≤ length))
  | difference size part => inferInstanceAs (Decidable (part ≤ size))

/-- The answer that given octets have to a query, if they have one. -/
def answer? (bs : Bytes) : (q : Query) → Option q.Answer
  | octet place => bs[place]?
  | range start length =>
    if start + length ≤ bs.length then some ((bs.drop start).take length) else none
  | difference size part => if part ≤ size then some (size - part) else none

end Query

/-- **A memory with given octets** in front and anything behind them. -/
structure Memory (bs : Bytes) where
  /-- What stands in a place. -/
  octetAt : Nat → UInt8
  octetAt_eq (place : Nat) (h : place < bs.length) : octetAt place = bs[place]

namespace Memory

variable {bs : Bytes}

/-- The memory with the same octet in all places behind the given ones. -/
def filled (bs : Bytes) (b : UInt8) : Memory bs where
  octetAt place := bs.getD place b
  octetAt_eq place h := by
    rw [List.getD_eq_getElem?_getD, List.getElem?_eq_getElem h, Option.getD_some]

/-- **The answer of a memory**, to every query: also behind the octets there is something, and a
size from which too much is taken wraps around in a word of 64 bits. -/
def answer (m : Memory bs) : (q : Query) → q.Answer
  | .octet place => m.octetAt place
  | .range start length => (List.range length).map fun i => m.octetAt (start + i)
  | .difference size part => if part ≤ size then size - part else size + UInt64.size - part

theorem answer_range (m : Memory bs) {start length : Nat} (h : start + length ≤ bs.length) :
    m.answer (.range start length) = (bs.drop start).take length := by
  have hlength : length ≤ bs.length - start := by omega
  refine List.ext_getElem (by simp [answer, hlength]) fun i hi _ => ?_
  have hi : i < length := by simpa [answer] using hi
  simp [answer, m.octetAt_eq (start + i) (by omega)]

/-- **The octets answer a query** exactly if it is within them, and then as
every memory with them does. -/
theorem answer?_eq_some_iff (m : Memory bs) {q : Query} {a : q.Answer} :
    q.answer? bs = some a ↔ q.Within bs.length ∧ m.answer q = a := by
  cases q with
  | octet place =>
    refine List.getElem?_eq_some_iff.trans ⟨fun ⟨h, ha⟩ => ⟨h, ?_⟩, fun ⟨h, ha⟩ => ⟨h, ?_⟩⟩
    · exact (m.octetAt_eq place h).trans ha
    · exact (m.octetAt_eq place h).symm.trans ha
  | range start length =>
    rw [Query.answer?, Option.ite_none_right_eq_some]
    refine and_congr_right fun h => ?_
    rw [m.answer_range h, Option.some.injEq]
  | difference size part =>
    rw [Query.answer?, Option.ite_none_right_eq_some]
    refine and_congr_right fun h => ?_
    rw [answer, if_pos h, Option.some.injEq]

end Memory

/-! ### Inspections -/

/-- **An inspection of octets** that comes to a value, or fails, or does neither
in the rounds that it was given. -/
inductive Inspection (α : Type) where
  /-- It has come to a value. -/
  | ended (a : α)
  /-- It fails. -/
  | fail (e : Error)
  /-- It has used up its rounds and would go on. -/
  | endless
  /-- It asks, and goes on with the answer. -/
  | ask (q : Query) (next : q.Answer → Inspection α)

namespace Inspection

variable {α β : Type}

/-- One inspection after another. -/
def bind : Inspection α → (α → Inspection β) → Inspection β
  | ended a, f => f a
  | fail e, _ => fail e
  | endless, _ => endless
  | ask q next, f => ask q fun a => (next a).bind f

instance : Monad Inspection where
  pure := ended
  bind := bind

/-- Asks for the octet in a place. -/
def octet (place : Nat) : Inspection UInt8 :=
  ask (.octet place) ended

/-- Asks for all octets of a range. -/
def range (start length : Nat) : Inspection Bytes :=
  ask (.range start length) ended

/-- Takes a part from a size. -/
def difference (size part : Nat) : Inspection Nat :=
  ask (.difference size part) ended

/-- **The run on given octets**: `none` if they have no answer to a query, or if
the rounds are used up. -/
def run? (bs : Bytes) : Inspection α → Option (Except Error α)
  | ended a => some (.ok a)
  | fail e => some (.error e)
  | endless => none
  | ask q next => (q.answer? bs).bind fun a => (next a).run? bs

section Memory

variable {bs : Bytes}

/-- All that is asked in a memory, in its order. -/
def queries (m : Memory bs) : Inspection α → List Query
  | ask q next => q :: (next (m.answer q)).queries m
  | _ => []

/-- What comes out in a memory, unless the rounds are used up. -/
def outcome (m : Memory bs) : Inspection α → Option (Except Error α)
  | ended a => some (.ok a)
  | fail e => some (.error e)
  | endless => none
  | ask q next => (next (m.answer q)).outcome m

/-- **The run on given octets comes to an end** exactly if all that is asked in a memory with
these octets is within them, and something comes out there; and this is the same. -/
theorem run?_eq_some_iff (m : Memory bs) {p : Inspection α} {o : Except Error α} :
    p.run? bs = some o ↔ (∀ q ∈ p.queries m, q.Within bs.length) ∧ p.outcome m = some o := by
  induction p with
  | ended a => simp [run?, queries, outcome]
  | fail e => simp [run?, queries, outcome]
  | endless => simp [run?, queries, outcome]
  | ask q next ih =>
    rw [run?, queries, outcome, Option.bind_eq_some_iff, List.forall_mem_cons, and_assoc]
    constructor
    · rintro ⟨a, ha, hnext⟩
      obtain ⟨hq, rfl⟩ := m.answer?_eq_some_iff.1 ha
      exact ⟨hq, (ih _).1 hnext⟩
    · rintro ⟨hq, hnext⟩
      exact ⟨_, m.answer?_eq_some_iff.2 ⟨hq, rfl⟩, (ih _).2 hnext⟩

/-- Too much is taken from the number of octets: what is left then is no place among them,
and a memory answers all the same. -/
example :
    let m : Memory [0xaa] := .filled [0xaa] 0xff
    let p : Inspection UInt8 := do octet (← difference 1 2)
    p.queries m = [.difference 1 2, .octet 0xffffffffffffffff] ∧
      (∀ q ∈ p.queries m, ¬q.Within 1) ∧ (p.run? [0xaa]).isNone := by
  decide

/-- **An inspection stays within octets** and comes to an outcome if this is so in every memory
with these octets, whatever stands behind them. -/
def StaysWithin (bs : Bytes) (p : Inspection α) (o : Except Error α) : Prop :=
  ∀ m : Memory bs, (∀ q ∈ p.queries m, q.Within bs.length) ∧ p.outcome m = some o

/-- To stay within octets is to come to an end on them. -/
theorem staysWithin_iff {p : Inspection α} {o : Except Error α} :
    p.StaysWithin bs o ↔ p.run? bs = some o :=
  ⟨fun h => (run?_eq_some_iff (Memory.filled bs 0)).2 (h _), fun h m => (run?_eq_some_iff m).1 h⟩

end Memory

/-! ### Runs one after another -/

section Bind

variable {bs : Bytes} {p : Inspection α} {f : α → Inspection β}

theorem run?_bind (bs : Bytes) (p : Inspection α) (f : α → Inspection β) : (p >>= f).run? bs =
    (p.run? bs).bind fun o =>
      match o with
      | .ok a => (f a).run? bs
      | .error e => some (.error e) := by
  change (p.bind f).run? bs = _
  induction p with
  | ended a => rfl
  | fail e => rfl
  | endless => rfl
  | ask q next ih => simp only [bind, run?, ih, Option.bind_assoc]

theorem run?_bind_of_ok {a : α} (h : p.run? bs = some (.ok a)) :
    (p >>= f).run? bs = (f a).run? bs := by
  rw [run?_bind, h]
  rfl

theorem run?_bind_of_error {e : Error} (h : p.run? bs = some (.error e)) :
    (p >>= f).run? bs = some (.error e) := by
  rw [run?_bind, h]
  rfl

end Bind

section Answered

variable {bs : Bytes}

theorem run?_octet {place : Nat} {b : UInt8} (h : bs[place]? = some b) :
    (octet place).run? bs = some (.ok b) := by
  rw [octet, run?, Query.answer?, h]
  rfl

theorem run?_range {start length : Nat} (h : start + length ≤ bs.length) :
    (range start length).run? bs = some (.ok ((bs.drop start).take length)) := by
  rw [range, run?, Query.answer?, if_pos h]
  rfl

theorem run?_difference {size part : Nat} (h : part ≤ size) :
    (difference size part).run? bs = some (.ok (size - part)) := by
  rw [difference, run?, Query.answer?, if_pos h]
  rfl

end Answered

end Inspection

end WitnessSigning
