import Bittorrent.Model.Common

/-!
# The C library (`stdio.h`, `ctype.h`)

What the text functions of the source use of the standard library, in the C locale: `fgets`, the
conversions `%d`, `%s` and `%.2x`, and character classes. A text is a list of bytes; the C string in a
buffer is what comes before its first NUL. A conversion reads from the front of a text and returns what
it leaves.
-/

namespace Bittorrent

/-! ## Characters -/

def newline : UInt8 := 10
def space : UInt8 := 32
def plusSign : UInt8 := 43
def minusSign : UInt8 := 45

def isspace (c : UInt8) : Bool := c = space || (9 ≤ c && c ≤ 13)

def isdigit (c : UInt8) : Bool := 48 ≤ c && c ≤ 57

def toupper (c : UInt8) : UInt8 := if 97 ≤ c ∧ c ≤ 122 then c - 32 else c

def cString (buf : List UInt8) : List UInt8 := buf.takeWhile (· ≠ 0)

/-! ## `fgets` -/

/-- At most `room` bytes, the last of them a newline if there is one among them. -/
def takeLine : Nat → List UInt8 → List UInt8 × List UInt8
  | 0, file => ([], file)
  | _ + 1, [] => ([], [])
  | room + 1, c :: file =>
    if c = newline then ([c], file)
    else
      let (line, rest) := takeLine room file
      (c :: line, rest)

/-- `fgets(line, size, f)`, with the rest of the file; `none` at its end. -/
def fgets (size : Nat) (file : List UInt8) : Option (List UInt8 × List UInt8) :=
  if file = [] then none else some (takeLine (size - 1) file)

/-! ## `sscanf` -/

def decimalValue (digits : List UInt8) : Nat := digits.foldl (fun n d => 10 * n + (d.toNat - 48)) 0

/-- `strtol` stays within the range of a `long`. -/
def clampLong (x : Int) : Int := max (-2 ^ 63) (min (2 ^ 63 - 1) x)

/-- `%d`, the value of `strtol` converted to `int`. -/
def scanInt (text : List UInt8) : Option (Int × List UInt8) :=
  let text := text.dropWhile isspace
  let negative := decide (text.head? = some minusSign)
  let text := if negative ∨ text.head? = some plusSign then text.tail else text
  let digits := text.takeWhile isdigit
  if digits = [] then none
  else
    let n : Int := decimalValue digits
    some (toInt32 (clampLong (if negative then -n else n)), text.dropWhile isdigit)

/-- `%s` with a width. -/
def scanWord (width : Nat) (text : List UInt8) : Option (List UInt8 × List UInt8) :=
  let text := text.dropWhile isspace
  let word := (text.takeWhile fun c => !isspace c).take width
  if word = [] then none else some (word, text.drop word.length)

/-! ## `printf` -/

def decimal (n : Nat) : List UInt8 := (Nat.toDigits 10 n).map fun c => UInt8.ofNat c.toNat

/-- `%d`. -/
def formatInt (x : Int) : List UInt8 :=
  if x < 0 then minusSign :: decimal x.natAbs else decimal x.natAbs

/-- A digit of `%x`. -/
def hexDigit (n : Nat) : UInt8 := if n < 10 then UInt8.ofNat (48 + n) else UInt8.ofNat (87 + n)

/-- `%.2x` of a byte. -/
def formatByte (b : UInt8) : List UInt8 := [hexDigit (b.toNat / 16), hexDigit (b.toNat % 16)]

end Bittorrent
