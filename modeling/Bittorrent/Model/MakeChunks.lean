import Bittorrent.Model.ChunkFile
import Bittorrent.Model.Sha

/-!
# Making chunk files (`make_chunks.c`, `chunk.c`)

`get_numchunks` sizes the array of hashes and `make_chunks` fills it while it reads the file. `fread`
returns fewer bytes than asked for only at the end of the file.
-/

namespace Bittorrent

/-- The `ceil` of `get_numchunks`, from `st_size`. The quotient of the two `double`s is exact for every file
below `2 ^ 53` bytes. -/
def getNumchunks (size : Nat) : Nat := (size + (btChunkSize - 1)) / btChunkSize

/-- The loop of `make_chunks`: `chunk_hashes[numchunks++]` is one of `count` pointers. -/
def makeChunksFrom (stack : Memory) (count numchunks : Nat) (file : List UInt8) :
    Except Fault (List Hash) :=
  let buffer := file.take btChunkSize
  if buffer = [] then .ok []
  else if numchunks < count then
    match makeChunksFrom stack count (numchunks + 1) (file.drop btChunkSize) with
    | .error f => .error f
    | .ok hashes => .ok (shahash stack buffer :: hashes)
  else .error .overflow
termination_by file.length
decreasing_by
  have hne : file ≠ [] := fun h => ‹buffer ≠ []› (by simp only [buffer, h, List.take_nil])
  have hpos := List.length_pos_iff.mpr hne
  rw [List.length_drop, btChunkSize]
  omega

/-- `make_chunks`, into an array of `count` hashes. -/
def makeChunks (stack : Memory) (count : Nat) (file : List UInt8) : Except Fault (List Hash) :=
  makeChunksFrom stack count 0 file

/-- `main` of `make_chunks.c`: what it prints for an input file, `none` if there is no such file. A number
of chunks that is no `int` is converted to `INT_MIN`, which fails the check for sanity. -/
def makeChunksMain (stack : Memory) (file : Option (List UInt8)) : Except Fault (List UInt8) :=
  match file with
  | none => .error .exit
  | some file =>
    if 2 ^ 31 ≤ getNumchunks file.length then .error .exit
    else
    match makeChunks stack (getNumchunks file.length) file with
    | .error f => .error f
    | .ok hashes => .ok (printChunks hashes)

end Bittorrent
