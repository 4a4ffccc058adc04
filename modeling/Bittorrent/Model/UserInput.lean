import Bittorrent.Model.Peer
import Bittorrent.Model.ChunkFile

/-!
# User input (`input_buffer.c`, `peer.c`, `file.c`)

The buffer that standard input is read into, and the loop that hands its lines on. The buffer is a C string,
so the loop also sees bytes that were not read in this call; the log of `userMachine` are the lines. A line is
handled on a `Host`: a running peer and the disk its files are on.
-/

namespace Bittorrent

/-! ## The buffer -/

def userbufSize : Nat := 8191

/-- `struct user_iobuf`, with the `USERBUF_SIZE + 1` bytes of `buf`. -/
structure UserIobuf where
  buf : List UInt8
  cur : Nat

/-- `create_userbuf`. -/
def createUserbuf : UserIobuf := ⟨List.replicate (userbufSize + 1) 0, 0⟩

/-- `strchr`: a position before the first NUL. -/
def strchr (c : UInt8) : List UInt8 → Option Nat
  | [] => none
  | b :: buf => if b = c then some 0 else if b = 0 then none else (strchr c buf).map (· + 1)

/-- `memmove(buf, buf + src, n)`. -/
def memmoveFront (buf : List UInt8) (src n : Nat) : List UInt8 := (buf.drop src).take n ++ buf.drop n

namespace UserIobuf

/-- What `read` stores; nothing at the end of the input. -/
def read (u : UserIobuf) (input : List UInt8) : UserIobuf where
  buf := u.buf.take u.cur ++ input ++ u.buf.drop (u.cur + input.length)
  cur := (u.cur + input.length) % 2 ^ 32

/-- The line that ends at `ret` is shifted out. -/
def shift (u : UserIobuf) (ret : Nat) : UserIobuf where
  buf := memmoveFront (u.buf.set ret 0) (ret + 1) (userbufSize - ret)
  cur := (u.cur + 2 ^ 32 - (ret + 1)) % 2 ^ 32

end UserIobuf

/-! ## Lines -/

/-- The loop of `process_user_input`, with the lines given to `handle_line`. -/
def processLines : Nat → UserIobuf → Except Fault (UserIobuf × List (List UInt8))
  | 0, _ => .error .diverge
  | fuel + 1, u =>
    match strchr newline u.buf with
    | none => .ok (u, [])
    | some ret =>
      match processLines fuel (u.shift ret) with
      | .error f => .error f
      | .ok (u', lines) => .ok (u', cString (u.buf.set ret 0) :: lines)

/-- `process_user_input`. Each round finds a newline in a shorter string. -/
def processUserInput (input : List UInt8) (u : UserIobuf) :
    Except Fault (UserIobuf × List (List UInt8)) :=
  if userbufSize - 1 ≤ u.cur then .error .exit else processLines (userbufSize + 2) (u.read input)

/-- An event is what one `read` returns. -/
def userMachine : Machine UserIobuf (List UInt8) (List UInt8) Fault where
  step := processUserInput

/-! ## Files -/

/-- The files by name, and for which names the system calls succeed: `open` with `O_CREAT`, `fopen` for
reading, and `write`. -/
structure Disk where
  content : String → Option (List UInt8)
  opens : String → Bool
  reads : String → Bool
  writes : String → Bool

namespace Disk

variable (disk : Disk) (name : String)

/-- What the peer reads of a file, as `Downloads` has it. -/
def memory : Memory := fun k => ((disk.content name).getD []).getD k 0

/-- `fopen(name, "r")`. -/
def fopen : Option (List UInt8) := if disk.reads name then disk.content name else none

/-- `open_file`, which creates a file that is missing. -/
def openFile : Disk :=
  if disk.opens name then
    { disk with content := Function.update disk.content name (some ((disk.content name).getD [])) }
  else disk

/-- One byte at an offset; a file that is too short grows by zeros. -/
def putByte (bytes : List UInt8) (offset : Nat) (b : UInt8) : List UInt8 :=
  (bytes ++ List.replicate (offset + 1 - bytes.length) 0).set offset b

/-- `create_file(name, size)`; nothing is written if the file was not opened. -/
def createFile (size : Nat) : Disk :=
  let disk := disk.openFile name
  if disk.opens name ∧ disk.writes name then
    { disk with content :=
        Function.update disk.content name ((disk.content name).map fun bytes => putByte bytes (size - 1) 0) }
  else disk

end Disk

/-- A peer and its disk. -/
structure Host where
  disk : Disk
  peer : Peer
  /-- The peer sees the files of the disk. -/
  files : peer.downloads.files = disk.memory

namespace Host

def withDisk (h : Host) (disk : Disk) : Host where
  disk := disk
  peer := { h.peer with downloads := { h.peer.downloads with files := disk.memory } }
  files := rfl

def withRequest (h : Host) (request : Request) : Host where
  disk := h.disk
  peer := { h.peer with downloads := { h.peer.downloads with currentRequest := some request } }
  files := h.files

end Host

/-! ## GET lines (`peer.c`) -/

/-- A file name in a line. -/
def fileName (word : List UInt8) : String := String.ofList (word.map fun c => Char.ofNat c.toNat)

/-- `sscanf(line, "GET %120s %120s", chunkf, outf)`, if it stores both. -/
def scanGet (line : List UInt8) : Option (String × String) :=
  if line.take 3 = [71, 69, 84] then
    match scanWord 120 (line.drop 3) with
    | none => none
    | some (chunkf, rest) => (scanWord 120 rest).map fun (outf, _) => (fileName chunkf, fileName outf)
  else none

/-- `process_get`. -/
def processGet (env : Env) (stale : Stale) (chunkf outf : String) (h : Host) :
    Except Fault (Host × PeerLog) :=
  if h.peer.downloads.currentRequest.isSome then .ok (h, [])
  else
    match parseHasGetChunkFile stale (h.disk.fopen chunkf) (some outf) with
    | .error f => .error f
    | .ok none => .ok (h, [])
    | .ok (some request) =>
      match whohasFlooding env request with
      | .error f => .error f
      | .ok sent => .ok (h.withRequest request, sent.map .inr)

/-- `handle_user_input`: the output file is created before `process_get` looks at the request. -/
def handleUserInput (env : Env) (stale : Stale) (line : List UInt8) (h : Host) :
    Except Fault (Host × PeerLog) :=
  match scanGet (cString line) with
  | none => .ok (h, [])
  | some (chunkf, outf) =>
    processGet env stale chunkf outf (h.withDisk (h.disk.createFile outf btChunkSize))

end Bittorrent
