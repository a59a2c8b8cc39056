import WitnessSigning.Octets.Order

/-!
# Hashing block by block

Both hash functions of this library read a message in blocks of 64 octets: the message is filled up
to whole blocks by one octet `0x80`, zeros, and its length in bits as eight octets, and a chaining
value is carried from block to block. They differ in the order of octets within words and in the
function that takes in one block.
-/

namespace WitnessSigning

/-- Turns a word to the left. -/
def rotateLeft (x n : UInt32) : UInt32 :=
  (x <<< n) ||| (x >>> (32 - n))

/-- Turns a word to the right. -/
def rotateRight (x n : UInt32) : UInt32 :=
  (x >>> n) ||| (x <<< (32 - n))

/-- **Filling up to whole blocks**: the octets behind a message of `length` octets, where `bits` is
its length in bits as eight octets. -/
def filling (length : Nat) (bits : Bytes) : Bytes :=
  0x80 :: (List.replicate ((119 - length % 64) % 64) 0 ++ bits)

/-- The filling completes the last block. -/
theorem length_filling_mod (length : Nat) {bits : Bytes} (h : bits.length = 8) :
    (length + (filling length bits).length) % 64 = 0 := by
  simp only [filling, List.length_cons, List.length_append, List.length_replicate, h]
  omega

/-- The sixteen words of a block, where `value` reads four octets. -/
def blockWords (value : Bytes → Nat) (block : Bytes) : Vector UInt32 16 :=
  Vector.ofFn fun i => UInt32.ofNat (value ((block.drop (4 * i.val)).take 4))

/-- **Taking in the blocks**: carries a chaining value over the given number of blocks. -/
def absorb {σ : Type} (step : σ → Bytes → σ) : Nat → σ → Bytes → σ
  | 0, s, _ => s
  | n + 1, s, bs => absorb step n (step s (bs.take 64)) (bs.drop 64)

end WitnessSigning
