import WitnessSigning.Octets.Order

/-!
# Writing wire fields

Wire data are fields one behind the other. Numbers of a fixed width are little-endian; counts and
lengths take one, three, five or nine octets, the fewest that hold them. `WitnessSigning.Wire.Field`
collects the kinds of field, so that a stream of mixed fields is a list.
-/

namespace WitnessSigning.Wire

/-- A number of 32 bits in four octets. -/
def u32 (v : UInt32) : Bytes :=
  littleEndian 4 v.toNat

/-- A number of 64 bits in eight octets. -/
def u64 (v : UInt64) : Bytes :=
  littleEndian 8 v.toNat

/-- **A count or length** in the fewest octets: itself if it is below 253, else behind a mark that
tells its width. -/
def size (v : UInt64) : Bytes :=
  if v.toNat < 0xfd then [UInt8.ofNat v.toNat]
  else if v.toNat ≤ 0xffff then 0xfd :: littleEndian 2 v.toNat
  else if v.toNat ≤ 0xffffffff then 0xfe :: littleEndian 4 v.toNat
  else 0xff :: littleEndian 8 v.toNat

/-- The number of elements of a list, as a count. -/
def count {α : Type} (xs : List α) : Bytes :=
  size (UInt64.ofNat xs.length)

/-- Octets behind their length. -/
def sized (bs : Bytes) : Bytes :=
  count bs ++ bs

/-- A field of a stream. -/
inductive Field where
  | u8 (v : UInt8)
  | u32 (v : UInt32)
  | u64 (v : UInt64)
  /-- A count or length. -/
  | size (v : UInt64)
  /-- Octets whose number the reader knows. -/
  | raw (bs : Bytes)
  /-- Octets behind their length. -/
  | sized (bs : Bytes)
  deriving DecidableEq, Repr

/-- The octets of a field. -/
def Field.encode : Field → Bytes
  | u8 v => [v]
  | u32 v => Wire.u32 v
  | u64 v => Wire.u64 v
  | size v => Wire.size v
  | raw bs => bs
  | sized bs => Wire.sized bs

/-- **The octets of a stream** of fields. -/
def encodeAll (fields : List Field) : Bytes :=
  fields.flatMap Field.encode

end WitnessSigning.Wire
