import Bittorrent.Lib.Blocks
import Mathlib.Algebra.Ring.Nat

/-!
# SHA-1

The hash function as the standard defines it: the message is padded to whole blocks of 64 bytes, each block
is sixteen big-endian words that a recurrence continues to eighty, and eighty rounds of them change the five
words of the hash. A message of `n` bytes is followed by its length in bits, modulo `2 ^ 64`.
-/

namespace Bittorrent

/-- Five 32-bit words. -/
structure Words where
  a : UInt32
  b : UInt32
  c : UInt32
  d : UInt32
  e : UInt32
  deriving DecidableEq

namespace Sha1

def blockSize : Nat := 64

/-! ## Words and bytes -/

def rotateLeft (n : Nat) (x : UInt32) : UInt32 := ⟨x.toBitVec.rotateLeft n⟩

def choose (x y z : UInt32) : UInt32 := (x &&& y) ^^^ (~~~x &&& z)
def parity (x y z : UInt32) : UInt32 := x ^^^ y ^^^ z
def majority (x y z : UInt32) : UInt32 := (x &&& y) ^^^ (x &&& z) ^^^ (y &&& z)

/-- A number in `count` bytes, the most significant first. -/
def bigEndian (count n : Nat) : List UInt8 :=
  (List.range count).map fun k => UInt8.ofNat (n / 2 ^ (8 * (count - 1 - k)))

@[simp] theorem bigEndian_length (count n : Nat) : (bigEndian count n).length = count := by
  simp [bigEndian]

/-- The number in some bytes, the most significant first. -/
def number (bytes : List UInt8) : Nat := bytes.foldl (fun n b => n * 2 ^ 8 + b.toNat) 0

/-! ## A block -/

/-- The word `t` of the message schedule, from the words of the block. -/
def scheduleWord (m : Nat → UInt32) (t : Nat) : UInt32 :=
  if t < 16 then m t
  else
    rotateLeft 1 (scheduleWord m (t - 3) ^^^ scheduleWord m (t - 8) ^^^ scheduleWord m (t - 14) ^^^
      scheduleWord m (t - 16))

def roundFunction (t : Nat) : UInt32 → UInt32 → UInt32 → UInt32 :=
  if t < 20 then choose else if t < 40 then parity else if t < 60 then majority else parity

def roundConstant (t : Nat) : UInt32 :=
  if t < 20 then 0x5a827999 else if t < 40 then 0x6ed9eba1 else if t < 60 then 0x8f1bbcdc else 0xca62c1d6

def round (m : Nat → UInt32) (v : Words) (t : Nat) : Words where
  a := rotateLeft 5 v.a + roundFunction t v.b v.c v.d + v.e + roundConstant t + scheduleWord m t
  b := v.a
  c := rotateLeft 30 v.b
  d := v.c
  e := v.d

/-- The words of a block of bytes. -/
def blockWord (block : List UInt8) (i : Nat) : UInt32 := UInt32.ofNat (number ((block.drop (4 * i)).take 4))

def compress (h : Words) (block : List UInt8) : Words :=
  let v := (List.range 80).foldl (round (blockWord block)) h
  ⟨h.a + v.a, h.b + v.b, h.c + v.c, h.d + v.d, h.e + v.e⟩

/-! ## A message -/

def initial : Words := ⟨0x67452301, 0xefcdab89, 0x98badcfe, 0x10325476, 0xc3d2e1f0⟩

/-- How many zeros stand between the byte that ends the message and its length. -/
def zeros (length : Nat) : Nat := (119 - length % blockSize) % blockSize

def pad (message : List UInt8) : List UInt8 :=
  message ++ 0x80 :: List.replicate (zeros message.length) 0 ++ bigEndian 8 (8 * message.length % 2 ^ 64)

theorem flatten_blocks_pad (message : List UInt8) :
    (blocks blockSize (pad message)).flatten = pad message := by
  have hlength : (pad message).length % blockSize = 0 := by
    simp only [pad, zeros, blockSize, List.length_append, List.length_cons, List.length_replicate,
      bigEndian_length]
    omega
  have hrest := List.length_eq_zero_iff.mp ((unblocked_length blockSize (pad message)).trans hlength)
  have hpos : 0 < blockSize := by decide
  have hflatten := flatten_blocks hpos (pad message)
  rwa [hrest, List.append_nil] at hflatten

/-- The five words as bytes. -/
def output (h : Words) : List UInt8 :=
  [h.a, h.b, h.c, h.d, h.e].flatMap fun w => bigEndian 4 w.toNat

def digest (message : List UInt8) : List UInt8 :=
  output ((blocks blockSize (pad message)).foldl compress initial)

end Sha1

end Bittorrent
