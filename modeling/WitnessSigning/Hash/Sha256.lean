import WitnessSigning.Hash.Blocks

/-!
# SHA-256

The chaining value is eight words. A block's sixteen words are expanded into a
schedule of sixty-four, one for each round, and the words after the last round
are added to those before the first.

HMAC hashes under a key, which fills one block and is masked in two ways for an inner and an outer
hash. A key longer than a block stands for its own hash.
-/

namespace WitnessSigning

namespace Sha256

/-- The eight words carried from block to block. -/
structure State where
  a : UInt32
  b : UInt32
  c : UInt32
  d : UInt32
  e : UInt32
  f : UInt32
  g : UInt32
  h : UInt32

/-- The chaining value in front of the first block. -/
def State.initial : State where
  a := 0x6a09e667
  b := 0xbb67ae85
  c := 0x3c6ef372
  d := 0xa54ff53a
  e := 0x510e527f
  f := 0x9b05688c
  g := 0x1f83d9ab
  h := 0x5be0cd19

/-- The constants of the rounds. -/
def roundConstants : Vector UInt32 64 :=
  #v[0x428a2f98, 0x71374491, 0xb5c0fbcf, 0xe9b5dba5, 0x3956c25b, 0x59f111f1, 0x923f82a4, 0xab1c5ed5,
    0xd807aa98, 0x12835b01, 0x243185be, 0x550c7dc3, 0x72be5d74, 0x80deb1fe, 0x9bdc06a7, 0xc19bf174,
    0xe49b69c1, 0xefbe4786, 0x0fc19dc6, 0x240ca1cc, 0x2de92c6f, 0x4a7484aa, 0x5cb0a9dc, 0x76f988da,
    0x983e5152, 0xa831c66d, 0xb00327c8, 0xbf597fc7, 0xc6e00bf3, 0xd5a79147, 0x06ca6351, 0x14292967,
    0x27b70a85, 0x2e1b2138, 0x4d2c6dfc, 0x53380d13, 0x650a7354, 0x766a0abb, 0x81c2c92e, 0x92722c85,
    0xa2bfe8a1, 0xa81a664b, 0xc24b8b70, 0xc76c51a3, 0xd192e819, 0xd6990624, 0xf40e3585, 0x106aa070,
    0x19a4c116, 0x1e376c08, 0x2748774c, 0x34b0bcb5, 0x391c0cb3, 0x4ed8aa4a, 0x5b9cca4f, 0x682e6ff3,
    0x748f82ee, 0x78a5636f, 0x84c87814, 0x8cc70208, 0x90befffa, 0xa4506ceb, 0xbef9a3f7, 0xc67178f2]

/-- The words of the first `16 + n` rounds, latest first: the block's own, then
each from four earlier ones. -/
def latestWords (block : Vector UInt32 16) : (n : Nat) → { ws : List UInt32 // ws.length = 16 + n }
  | 0 => ⟨block.toList.reverse, by simp⟩
  | n + 1 =>
    let ⟨ws, h⟩ := latestWords block n
    let x := ws[14]
    let y := ws[1]
    ⟨(ws[15] + (rotateRight x 7 ^^^ rotateRight x 18 ^^^ (x >>> 3)) + ws[6] +
        (rotateRight y 17 ^^^ rotateRight y 19 ^^^ (y >>> 10))) :: ws,
      by simp only [List.length_cons, h]; omega⟩

/-- The words of the rounds in order. -/
def schedule (block : Vector UInt32 16) : Vector UInt32 64 :=
  ⟨(latestWords block 48).1.reverse.toArray, by simp [(latestWords block 48).2]⟩

/-- One round, given the sum of its constant and its word. -/
def round (s : State) (kw : UInt32) : State :=
  let t := s.h + (rotateRight s.e 6 ^^^ rotateRight s.e 11 ^^^ rotateRight s.e 25) +
    ((s.e &&& s.f) ^^^ (~~~s.e &&& s.g)) + kw
  let u := (rotateRight s.a 2 ^^^ rotateRight s.a 13 ^^^ rotateRight s.a 22) +
    ((s.a &&& s.b) ^^^ (s.a &&& s.c) ^^^ (s.b &&& s.c))
  { a := t + u, b := s.a, c := s.b, d := s.c, e := s.d + t, f := s.e, g := s.f, h := s.g }

/-- Takes in one block. -/
def compress (s : State) (block : Bytes) : State :=
  let w := schedule (blockWords ofBigEndian block)
  let r := Nat.fold 64 (fun t _ r => round r (roundConstants[t] + w[t])) s
  { a := s.a + r.a, b := s.b + r.b, c := s.c + r.c, d := s.d + r.d
    e := s.e + r.e, f := s.f + r.f, g := s.g + r.g, h := s.h + r.h }

/-- The words of a chaining value, each as four octets. -/
def State.toOctets (s : State) : Octets 32 where
  toList := [s.a, s.b, s.c, s.d, s.e, s.f, s.g, s.h].flatMap fun w =>
    (bigEndian 4 w.toNat).toList
  length_toList := by simp [(bigEndian 4 _).length_toList]

end Sha256

/-- **SHA-256** of a message. -/
def sha256 (message : Bytes) : Octets 32 :=
  let length := message.length
  let fill := filling length (bigEndian 8 (8 * length)).toList
  (absorb Sha256.compress ((length + fill.length) / 64) Sha256.State.initial
    (message ++ fill)).toOctets

/-- SHA-256 applied twice. -/
def doubleSha256 (message : Bytes) : Octets 32 :=
  sha256 (sha256 message).toList

/-! ### Hashing under a key -/

/-- The key as one block of 64 octets. -/
def keyBlock (key : Bytes) : Bytes :=
  let short := if key.length > 64 then (sha256 key).toList else key
  short ++ List.replicate (64 - short.length) 0

/-- A short key is longer neither as itself nor as its hash, so the block is exactly full. -/
theorem length_keyBlock (key : Bytes) : (keyBlock key).length = 64 := by
  simp only [keyBlock, List.length_append, List.length_replicate]
  split
  · simp [(sha256 key).length_toList]
  · omega

/-- **HMAC-SHA256** of some data under a key. -/
def hmacSha256 (key data : Bytes) : Octets 32 :=
  let block := keyBlock key
  let inner := sha256 (block.map (· ^^^ 0x36) ++ data)
  sha256 (block.map (· ^^^ 0x5c) ++ inner.toList)

end WitnessSigning
