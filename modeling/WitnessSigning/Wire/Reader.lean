import WitnessSigning.Wire.Field

/-!
# Reading wire fields

A reader looks at octets through a cursor, which separates those already passed from those
still unread, and moves it on. A read that fails keeps the cursor where it found it, with
one exception: what comes behind a count is read after the count, and a count that was
passed stays passed (`WitnessSigning.Wire.Reader.size`,
`WitnessSigning.Wire.Reader.sized`). Reading can go on from there.
-/

namespace WitnessSigning.Wire

/-- **A place in a list of octets**: those passed, latest first, and those still unread. -/
structure Cursor where
  passed : Bytes
  unread : Bytes
  deriving DecidableEq, Repr

namespace Cursor

/-- The cursor in front of all octets. -/
def start (bs : Bytes) : Cursor where
  passed := []
  unread := bs

/-- The number of octets passed. -/
def position (c : Cursor) : Nat :=
  c.passed.length

/-- The number of octets still unread. -/
def remaining (c : Cursor) : Nat :=
  c.unread.length

/-- Whether at least `n` octets are unread, found out without walking past them. -/
def holds (c : Cursor) (n : Nat) : Bool :=
  (c.unread.take n).length == n

/-- Passes up to `n` octets. -/
def advance (c : Cursor) (n : Nat) : Cursor where
  passed := (c.unread.take n).reverse ++ c.passed
  unread := c.unread.drop n

theorem holds_iff (c : Cursor) (n : Nat) : c.holds n = true ↔ n ≤ c.remaining := by
  simp only [holds, remaining, List.length_take, beq_iff_eq]
  omega

end Cursor

/-- **A reader**: from a cursor to an outcome and the cursor behind it, on failure too. -/
def Reader (α : Type) : Type :=
  Cursor → Except Error α × Cursor

namespace Reader

variable {α : Type}

instance : Monad Reader where
  pure a := fun c => (.ok a, c)
  bind r f := fun c =>
    match r c with
    | (.ok a, c) => f a c
    | (.error e, c) => (.error e, c)

/-- Fails where the cursor is. -/
def fail (e : Error) : Reader α := fun c =>
  (.error e, c)

/-- The octets still unread. -/
def unread : Reader Bytes := fun c =>
  (.ok c.unread, c)

/-- Reads `n` octets, or fails with the given cause if there are fewer. -/
def takeOr (e : Error) (n : Nat) : Reader Bytes := fun c =>
  if c.holds n then (.ok (c.unread.take n), c.advance n) else (.error e, c)

/-- Reads `n` octets. -/
def take (n : Nat) : Reader Bytes :=
  takeOr .endOfData n

/-- Reads one octet. -/
def u8 : Reader UInt8 := fun c =>
  match c.unread with
  | [] => (.error .endOfData, c)
  | b :: _ => (.ok b, c.advance 1)

/-- Reads a number of 32 bits. -/
def u32 : Reader UInt32 := do
  return UInt32.ofNat (ofLittleEndian (← take 4))

/-- Reads a number of 64 bits. -/
def u64 : Reader UInt64 := do
  return UInt64.ofNat (ofLittleEndian (← take 8))

/-- Reads octets of a known width. -/
def octets (n : Nat) : Reader (Octets n) := fun c =>
  if h : (c.unread.take n).length = n then (.ok ⟨c.unread.take n, h⟩, c.advance n)
  else (.error .endOfData, c)

/-- Reads what comes behind a mark: a number in `width` octets that takes as many. -/
def wideSize (width least : Nat) : Reader UInt64 := do
  let v := ofLittleEndian (← take width)
  if v < least then fail .overlongSize else return UInt64.ofNat v

/-- **Reads a count or length**, and refuses one that fewer octets would hold. -/
def size : Reader UInt64 := do
  let mark ← u8
  if mark < 0xfd then return UInt64.ofNat mark.toNat
  else if mark = 0xfd then wideSize 2 0xfd
  else if mark = 0xfe then wideSize 4 0x10000
  else wideSize 8 0x100000000

/-- Reads octets behind their length. -/
def sized : Reader Bytes := do
  let n ← size
  takeOr .lengthBeyondData n.toNat

/-- **Looks ahead** without passing anything. An offset is a word of 64 bits and so is the
number of octets that it needs; for the largest offset that number is zero, and it names the
octet just passed, or zero if none was. -/
def peek (offset : UInt64) : Reader UInt8 := fun c =>
  if c.holds (offset + 1).toNat then
    (.ok (if offset + 1 = 0 then c.passed.headD 0 else c.unread.getD offset.toNat 0), c)
  else
    (.error .endOfData, c)

/-- Reads `n` items, behind those already read, which come latest first. -/
def many (item : Reader α) : Nat → List α → Cursor → Except Error (List α) × Cursor
  | 0, done, c => (.ok done.reverse, c)
  | n + 1, done, c =>
    match item c with
    | (.ok a, c) => many item n (a :: done) c
    | (.error e, c) => (.error e, c)

/-- Reads a list of items behind its count. -/
def counted (item : Reader α) : Reader (List α) := do
  let n ← size
  many item n.toNat []

end Reader

/-! ### Reading a stream step by step -/

/-- What a step of a reading session asks for. -/
inductive Request where
  | u8
  | u32
  | u64
  | size
  | sized
  | raw (count : UInt64)
  | peek (offset : UInt64)
  deriving DecidableEq, Repr

/-- The request that reads a field back. -/
def Field.request : Field → Request
  | u8 _ => .u8
  | u32 _ => .u32
  | u64 _ => .u64
  | size _ => .size
  | raw bs => .raw (UInt64.ofNat bs.length)
  | sized _ => .sized

/-- The reader of a request. -/
def Request.read : Request → Reader Field
  | u8 => do return .u8 (← Reader.u8)
  | u32 => do return .u32 (← Reader.u32)
  | u64 => do return .u64 (← Reader.u64)
  | size => do return .size (← Reader.size)
  | sized => do return .sized (← Reader.sized)
  | raw count => do return .raw (← Reader.take count.toNat)
  | peek offset => do return .u8 (← Reader.peek offset)

/-- **A reading session**: the outcome of each step with the cursor behind it, where a failed step
does not end the session. -/
def session : List Request → Cursor → List (Except Error Field × Cursor)
  | [], _ => []
  | r :: rest, c =>
    let step := r.read c
    step :: session rest step.2

end WitnessSigning.Wire
