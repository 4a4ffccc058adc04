import Bittorrent.Model.Program
import Bittorrent.Model.Sha
import Bittorrent.Model.Spiffy

/-!
# The start of the program (`peer.c`)

`main` and what `peer_run` does before its loop: the command line and the peer list, the way to the router, the
two chunk tables, and the name of the master data file in the first line of the chunk file.
-/

namespace Bittorrent

/-- What a program that starts gets from outside, the files as they are while it starts, and what is in
memory that it does not set. -/
structure Boot where
  opts : List BtOption
  gethostbyname : List UInt8 → Option Nat
  inetAton : List UInt8 → Option Nat
  spiffyRouter : Option (List UInt8)
  fopen : List UInt8 → Option (List UInt8)
  /-- The other files, as the program reads and writes them. -/
  files : String → Memory
  writes : String → Int → Nat
  smoothing : Smoothing
  stack : PeerLocals
  stale : Stale
  readBuffer : List UInt8
  shaStack : Memory
  unset : Nat → UnsetSlot

/-- `sscanf(read_buffer, "File:%s", master_data_file_name)` into a name that is empty. -/
def masterDataFileName (readBuffer : List UInt8) : List UInt8 :=
  let text := cString readBuffer
  if text.take 5 = [70, 105, 108, 101, 58] then
    ((scanWord (text.drop 5).length (text.drop 5)).map (·.1)).getD []
  else []

/-- `fgets(read_buffer, MAX_LINE_LENGTH, master_chunk_file)`. -/
def Boot.firstLine (b : Boot) (file : List UInt8) : List UInt8 :=
  ((fgets maxLineLength file).map (·.1)).getD b.readBuffer

/-- `peer_run` up to its loop; `none` if it returns for want of a table. -/
def Boot.peerRun (b : Boot) (config : BtConfig) : Except Fault (Option (Env × Spiffy × Program)) :=
  match parseHasGetChunkFile b.stale (b.fopen config.hasChunkFile) none with
  | .error f => .error f
  | .ok has =>
    match parseTotalChunkFile b.stale (b.fopen config.chunkFile) none with
    | .error f => .error f
    | .ok total =>
      match has, total, b.fopen config.chunkFile with
      | some has, some total, some file =>
        let masterData := (b.fopen (masterDataFileName (b.firstLine file))).getD []
        let env : Env :=
          { peers := config.peers, identity := config.identity, smoothing := b.smoothing,
            shahash := shahash b.shaStack,
            masterData := ⟨masterData.length, fun k => masterData.getD k 0⟩,
            totalChunkTable := total.chunks, writes := b.writes }
        .ok (some (env, spiffyInit b.inetAton b.spiffyRouter config.identity ⟨0, config.myport⟩,
          initProgram config.maxConn.toNat b.unset has.chunks b.files))
      | _, _, _ => .ok none

/-- `main`. -/
def Boot.main (b : Boot) : Except Fault (Option (Env × Spiffy × Program)) :=
  match btParseCommandLine testingConfig b.gethostbyname b.fopen b.stack b.opts with
  | .error f => .error f
  | .ok config => b.peerRun config

end Bittorrent
