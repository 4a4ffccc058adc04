import Bittorrent.Model.Stdio

/-!
# Chunk files (`chunk.c`, `make_chunks.c`, `util.c`)

The conversions between hashes and hex, the printing of `make_chunks`, and the two parsers. Both parsers
read the file twice, first to count the chunks and then to fill a table of that size; what they read
without having written it (the ids of a fresh table, the hash buffer on the stack) is given by `Stale`.
-/

namespace Bittorrent

def maxLineLength : Nat := 255

/-! ## Hex (`chunk.c`) -/

/-- `binary2hex`, without the NUL it ends with. -/
def binary2hex (buf : List UInt8) : List UInt8 := buf.flatMap formatByte

/-- `_hex2binary`; a `char` above 127 is negative. -/
def hex2binaryDigit (hex : UInt8) : UInt8 :=
  let hex := toupper hex
  if hex ≤ 57 ∨ 128 ≤ hex then hex - 48 else hex - (65 - 10)

/-- `hex2binary`, which reads `len` characters whatever they are. -/
def hex2binary (hex : Memory) (len : Nat) : List UInt8 :=
  (List.range (len / 2)).map fun k =>
    hex2binaryDigit (hex (2 * k)) <<< 4 ||| hex2binaryDigit (hex (2 * k + 1))

/-! ## Printing (`make_chunks.c`) -/

/-- `printf("%d %s\n", i, ascii)`. -/
def chunkLine (i : Int) (hash : Hash) : List UInt8 :=
  formatInt i ++ space :: (binary2hex hash.val ++ [newline])

/-- The printing loop of `main`, with its `int i`. -/
def printChunks (hashes : List Hash) : List UInt8 :=
  (hashes.mapIdx fun i hash => chunkLine (toInt32 i) hash).flatten

/-! ## Parsing (`util.c`) -/

/-- `while(fgets(line, MAX_LINE_LENGTH, f))`: what is read in each pass. A pass reads at least one
byte. -/
def readLines : Nat → List UInt8 → List (List UInt8)
  | 0, _ => []
  | fuel + 1, file =>
    match fgets maxLineLength file with
    | none => []
    | some (line, rest) => line :: readLines fuel rest

def fileLines (file : List UInt8) : List (List UInt8) := readLines file.length file

/-- The counting pass skips lines that begin with '#'. -/
def countChunks : List (List UInt8) → Nat
  | [] => 0
  | line :: lines => if line.head? = some 35 then countChunks lines else countChunks lines + 1

/-- `sscanf(line, "%d %s", ...)`: what it stores. -/
def scanEntry (line : List UInt8) : Option Int × Option (List UInt8) :=
  match scanInt (cString line) with
  | none => (none, none)
  | some (id, rest) => (some id, (scanWord rest.length rest).map (·.1))

/-- What is in memory that was never written. -/
structure Stale where
  id : Nat → Int
  hash : Memory

/-- The entry the filling pass stores for a line. -/
def parsedChunk (id : Int) (hash : Memory) (outputFilename : Option String) : Chunk where
  id := id
  hash := ⟨hex2binary hash (sha1HashSize * 2), by simp [hex2binary, sha1HashSize]⟩
  state := if outputFilename.isSome then .notStarted else .owned
  data := none
  receivedSeqNumber := 0
  receivedByteNumber := 0

/-- The filling pass from entry `i` on, into `count` entries. It does not skip a line. The 41 bytes of
`hash` keep what a line without a second word does not overwrite. -/
def fillChunks (stale : Stale) (outputFilename : Option String) (count : Nat) :
    List (List UInt8) → Nat → Memory → Except Fault (List Chunk)
  | [], _, _ => .ok []
  | line :: lines, i, hash =>
    if i < count then
      let (id, word) := scanEntry line
      let word := word.getD []
      if word.length ≤ sha1HashSize * 2 then
        let hash := if word = [] then hash else copyBytes hash 0 (fun k => word.getD k 0) (word.length + 1)
        match fillChunks stale outputFilename count lines (i + 1) hash with
        | .error f => .error f
        | .ok chunks =>
          .ok (parsedChunk (id.getD (stale.id i)) hash outputFilename :: chunks)
      else .error .overflow
    else .error .overflow

/-- Both passes. -/
def parseLines (stale : Stale) (outputFilename : Option String) (lines : List (List UInt8)) :
    Except Fault (Option Request) :=
  match fillChunks stale outputFilename (countChunks lines) lines 0 stale.hash with
  | .error f => .error f
  | .ok chunks => .ok (some ⟨outputFilename, chunks⟩)

/-- `parse_has_get_chunk_file`; the file is `none` if it cannot be opened. -/
def parseHasGetChunkFile (stale : Stale) (chunkFile : Option (List UInt8))
    (outputFilename : Option String) : Except Fault (Option Request) :=
  match chunkFile with
  | none => .ok none
  | some file => parseLines stale outputFilename (fileLines file)

/-- An `fgets` whose result is not used. -/
def skipLine (file : List UInt8) : List UInt8 :=
  match fgets maxLineLength file with
  | none => file
  | some (_, rest) => rest

/-- `parse_total_chunk_file`: each pass begins behind the two header lines. -/
def parseTotalChunkFile (stale : Stale) (chunkFile : Option (List UInt8))
    (outputFilename : Option String) : Except Fault (Option Request) :=
  match chunkFile with
  | none => .ok none
  | some file => parseLines stale outputFilename (fileLines (skipLine (skipLine file)))

end Bittorrent
