import WitnessSigning.Hash.Sha256

/-!
# RIPEMD-160

The chaining value is five words. A block passes two lines of eighty steps side by side, which read
its words in different orders; their results are added to the chaining value crosswise.
-/

namespace WitnessSigning

namespace Ripemd160

/-- The five words carried from block to block. -/
structure State where
  a : UInt32
  b : UInt32
  c : UInt32
  d : UInt32
  e : UInt32

/-- The chaining value in front of the first block. -/
def State.initial : State where
  a := 0x67452301
  b := 0xefcdab89
  c := 0x98badcfe
  d := 0x10325476
  e := 0xc3d2e1f0

/-- One step of a line: how it mixes three words, what it adds, which word of the block it
reads, and how far it turns the sum. -/
structure Step where
  mix : UInt32 → UInt32 → UInt32 → UInt32
  addend : UInt32
  word : Fin 16
  turn : UInt32

/-- Sixteen steps that mix alike. -/
def row (mix : UInt32 → UInt32 → UInt32 → UInt32) (addend : UInt32) (words : List (Fin 16))
    (turns : List UInt32) : List Step :=
  List.zipWith (Step.mk mix addend) words turns

/-- Parity of three words. -/
def parity (x y z : UInt32) : UInt32 := x ^^^ y ^^^ z

/-- The second or the third word, as the first one says. -/
def choose (x y z : UInt32) : UInt32 := (x &&& y) ||| (~~~x &&& z)

/-- The third mixing function. -/
def cover (x y z : UInt32) : UInt32 := (x ||| ~~~y) ^^^ z

/-- The first or the second word, as the third one says. -/
def pick (x y z : UInt32) : UInt32 := (x &&& z) ||| (y &&& ~~~z)

/-- The fifth mixing function. -/
def shade (x y z : UInt32) : UInt32 := x ^^^ (y ||| ~~~z)

/-- The steps of the left line. -/
def leftLine : List Step :=
  row parity 0 [0, 1, 2, 3, 4, 5, 6, 7, 8, 9, 10, 11, 12, 13, 14, 15]
    [11, 14, 15, 12, 5, 8, 7, 9, 11, 13, 14, 15, 6, 7, 9, 8] ++
  row choose 0x5a827999 [7, 4, 13, 1, 10, 6, 15, 3, 12, 0, 9, 5, 2, 14, 11, 8]
    [7, 6, 8, 13, 11, 9, 7, 15, 7, 12, 15, 9, 11, 7, 13, 12] ++
  row cover 0x6ed9eba1 [3, 10, 14, 4, 9, 15, 8, 1, 2, 7, 0, 6, 13, 11, 5, 12]
    [11, 13, 6, 7, 14, 9, 13, 15, 14, 8, 13, 6, 5, 12, 7, 5] ++
  row pick 0x8f1bbcdc [1, 9, 11, 10, 0, 8, 12, 4, 13, 3, 7, 15, 14, 5, 6, 2]
    [11, 12, 14, 15, 14, 15, 9, 8, 9, 14, 5, 6, 8, 6, 5, 12] ++
  row shade 0xa953fd4e [4, 0, 5, 9, 7, 12, 2, 10, 14, 1, 3, 8, 11, 6, 15, 13]
    [9, 15, 5, 11, 6, 8, 13, 12, 5, 12, 13, 14, 11, 8, 5, 6]

/-- The steps of the right line. -/
def rightLine : List Step :=
  row shade 0x50a28be6 [5, 14, 7, 0, 9, 2, 11, 4, 13, 6, 15, 8, 1, 10, 3, 12]
    [8, 9, 9, 11, 13, 15, 15, 5, 7, 7, 8, 11, 14, 14, 12, 6] ++
  row pick 0x5c4dd124 [6, 11, 3, 7, 0, 13, 5, 10, 14, 15, 8, 12, 4, 9, 1, 2]
    [9, 13, 15, 7, 12, 8, 9, 11, 7, 7, 12, 7, 6, 15, 13, 11] ++
  row cover 0x6d703ef3 [15, 5, 1, 3, 7, 14, 6, 9, 11, 8, 12, 2, 10, 0, 4, 13]
    [9, 7, 15, 11, 8, 6, 6, 14, 12, 13, 5, 14, 13, 13, 7, 5] ++
  row choose 0x7a6d76e9 [8, 6, 4, 1, 3, 11, 15, 0, 5, 12, 2, 13, 9, 7, 10, 14]
    [15, 5, 8, 11, 14, 14, 6, 14, 6, 9, 12, 9, 12, 5, 15, 8] ++
  row parity 0 [12, 15, 10, 4, 1, 5, 8, 7, 6, 2, 13, 14, 0, 3, 9, 11]
    [8, 5, 12, 9, 12, 5, 14, 6, 8, 13, 6, 5, 15, 13, 11, 11]

/-- Applies one step. -/
def Step.apply (block : Vector UInt32 16) (s : State) (p : Step) : State where
  a := s.e
  b := rotateLeft (s.a + p.mix s.b s.c s.d + block[p.word] + p.addend) p.turn + s.e
  c := s.b
  d := rotateLeft s.c 10
  e := s.d

/-- Takes in one block. -/
def compress (s : State) (block : Bytes) : State :=
  let words := blockWords ofLittleEndian block
  let l := leftLine.foldl (Step.apply words) s
  let r := rightLine.foldl (Step.apply words) s
  { a := s.b + l.c + r.d, b := s.c + l.d + r.e, c := s.d + l.e + r.a
    d := s.e + l.a + r.b, e := s.a + l.b + r.c }

/-- The words of a chaining value, each as four octets. -/
def State.toOctets (s : State) : Octets 20 where
  toList := [s.a, s.b, s.c, s.d, s.e].flatMap fun w => littleEndian 4 w.toNat
  length_toList := by simp [length_littleEndian]

end Ripemd160

/-- **RIPEMD-160** of a message. -/
def ripemd160 (message : Bytes) : Octets 20 :=
  let length := message.length
  let fill := filling length (littleEndian 8 (8 * length))
  (absorb Ripemd160.compress ((length + fill.length) / 64) Ripemd160.State.initial
    (message ++ fill)).toOctets

/-- The short hash of a key: RIPEMD-160 of SHA-256. -/
def hash160 (message : Bytes) : Octets 20 :=
  ripemd160 (sha256 message).toList

end WitnessSigning
