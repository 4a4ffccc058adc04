import Bittorrent.Lib.Sha1
import Bittorrent.Model.Common

/-!
# SHA-1 (`sha.c`, `chunk.c`)

The context that is fed a message piece by piece, and the function that `chunk.c` makes of it. As
compiled here: the words of the buffer are little-endian (`WORDS_BIGENDIAN` is not defined), and bytes are
copied to the buffer before a block is read from it (`SHA1_FAST_COPY` is not defined either).
-/

namespace Bittorrent

def sha1BlockSize : Nat := 64

/-! ## Words -/

def rotl (x n : UInt32) : UInt32 := x <<< n ||| x >>> (32 - n)
def rotr (x n : UInt32) : UInt32 := x >>> n ||| x <<< (32 - n)

def f0To19 (x y z : UInt32) : UInt32 := z ^^^ (x &&& (y ^^^ z))
def f20To39 (x y z : UInt32) : UInt32 := x ^^^ y ^^^ z
def f40To59 (x y z : UInt32) : UInt32 := (x &&& (y ||| z)) ||| (y &&& z)
def f60To79 (x y z : UInt32) : UInt32 := x ^^^ y ^^^ z

def k0To19 : UInt32 := 0x5a827999
def k20To39 : UInt32 := 0x6ed9eba1
def k40To59 : UInt32 := 0x8f1bbcdc
def k60To79 : UInt32 := 0xca62c1d6

def byteswap (x : UInt32) : UInt32 := (rotr x 8 &&& 0xff00ff00) ||| (rotl x 8 &&& 0x00ff00ff)

def byteswap64 (x : UInt64) : UInt64 :=
  let a := (x >>> 32).toUInt32
  let b := x.toUInt32
  (byteswap b).toUInt64 <<< 32 ||| (byteswap a).toUInt64

/-- `*cbuf`, for a pointer to the `i`-th word of the buffer. -/
def bufferWord (buffer : Memory) (i : Nat) : UInt32 :=
  (buffer (4 * i)).toUInt32 ||| (buffer (4 * i + 1)).toUInt32 <<< 8 |||
    (buffer (4 * i + 2)).toUInt32 <<< 16 ||| (buffer (4 * i + 3)).toUInt32 <<< 24

/-- The eight bytes of an `uint64_t` in memory. -/
def bytes64 (x : UInt64) : List UInt8 :=
  (List.range 8).map fun k => (x >>> UInt64.ofNat (8 * k)).toUInt8

/-! ## A block -/

/-- The first loop of `SHA1Guts`. -/
def loadWords (buffer : Memory) : List UInt32 :=
  (List.range 16).map fun i => byteswap (bufferWord buffer i)

/-- The second loop: the four pointers into `buf` move on with `W`, which is at position `16 + k`. -/
def extendWords : Nat → Nat → List UInt32 → List UInt32
  | 0, _, buf => buf
  | i + 1, k, buf =>
    let w := buf.getD (13 + k) 0 ^^^ buf.getD (8 + k) 0 ^^^ buf.getD (2 + k) 0 ^^^ buf.getD k 0
    extendWords i (k + 1) (buf ++ [rotl w 1])

/-- `DO_ROUND`. -/
def doRound (f : UInt32 → UInt32 → UInt32 → UInt32) (k : UInt32) (v : Words) (w : UInt32) : Words :=
  let temp := rotl v.a 5 + f v.b v.c v.d + v.e + w + k
  ⟨temp, v.a, rotl v.b 30, v.c, v.d⟩

/-- `SHA1Guts`. -/
def sha1Guts (hash : Words) (buffer : Memory) : Words :=
  let buf := extendWords 64 0 (loadWords buffer)
  let v := (buf.take 20).foldl (doRound f0To19 k0To19) hash
  let v := ((buf.drop 20).take 20).foldl (doRound f20To39 k20To39) v
  let v := ((buf.drop 40).take 20).foldl (doRound f40To59 k40To59) v
  let v := ((buf.drop 60).take 20).foldl (doRound f60To79 k60To79) v
  ⟨hash.a + v.a, hash.b + v.b, hash.c + v.c, hash.d + v.d, hash.e + v.e⟩

/-! ## The context -/

/-- `SHA1Context`, between two calls. -/
structure Sha1Context where
  totalLength : UInt64
  hash : Words
  bufferLength : Nat
  buffer : Memory
  /-- A buffer that is full is hashed at once. -/
  room : bufferLength < sha1BlockSize

/-- `SHA1Init`, over whatever was in the buffer. -/
def sha1Init (buffer : Memory) : Sha1Context where
  totalLength := 0
  hash := ⟨0x67452301, 0xefcdab89, 0x98badcfe, 0x10325476, 0xc3d2e1f0⟩
  bufferLength := 0
  buffer := buffer
  room := by decide

/-- `bytesToCopy`. -/
def Sha1Context.toCopy (sc : Sha1Context) (data : List UInt8) : Nat :=
  min (sha1BlockSize - sc.bufferLength) data.length

/-- One pass of the loop of `SHA1Update`. -/
def Sha1Context.copy (sc : Sha1Context) (data : List UInt8) : Sha1Context :=
  let bytesToCopy := sc.toCopy data
  let buffer := copyBytes sc.buffer sc.bufferLength (fun k => data.getD k 0) bytesToCopy
  let totalLength := sc.totalLength + UInt64.ofNat (bytesToCopy * 8)
  if h : sc.bufferLength + bytesToCopy = sha1BlockSize then
    { totalLength, hash := sha1Guts sc.hash buffer, bufferLength := 0, buffer, room := by decide }
  else
    { totalLength, hash := sc.hash, bufferLength := sc.bufferLength + bytesToCopy, buffer
      room := by have := sc.room; simp only [bytesToCopy, Sha1Context.toCopy] at h ⊢; omega }

/-- `SHA1Update`, with the `len` bytes of its data. -/
def sha1Update (sc : Sha1Context) (data : List UInt8) : Sha1Context :=
  if data = [] then sc else sha1Update (sc.copy data) (data.drop (sc.toCopy data))
termination_by data.length
decreasing_by
  have hpos := List.length_pos_iff.mpr ‹data ≠ []›
  have hroom := sc.room
  rw [List.length_drop, Sha1Context.toCopy]
  omega

/-- `bytesToPad`. -/
def Sha1Context.toPad (sc : Sha1Context) : Nat :=
  if 120 - sc.bufferLength > 64 then 120 - sc.bufferLength - 64 else 120 - sc.bufferLength

/-- The array `padding`. -/
def padding : List UInt8 := 0x80 :: List.replicate 63 0

/-- The bytes of a word that `SHA1Final` writes. -/
def finalBytes (x : UInt32) : List UInt8 :=
  [(x >>> 24).toUInt8, (x >>> 16).toUInt8, (x >>> 8).toUInt8, x.toUInt8]

/-- The writing loop of `SHA1Final`. -/
def Words.hash (v : Words) : Hash :=
  ⟨finalBytes v.a ++ finalBytes v.b ++ finalBytes v.c ++ finalBytes v.d ++ finalBytes v.e, rfl⟩

/-- `SHA1Final`. -/
def sha1Final (sc : Sha1Context) : Hash :=
  let lengthPad := byteswap64 sc.totalLength
  (sha1Update (sha1Update sc (padding.take sc.toPad)) (bytes64 lengthPad)).hash.hash

/-- `shahash` of `chunk.c`; its context is on the stack. -/
def shahash (stack : Memory) (str : List UInt8) : Hash := sha1Final (sha1Update (sha1Init stack) str)

end Bittorrent
