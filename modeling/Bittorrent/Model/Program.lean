import Bittorrent.Model.UserInput

/-!
# The program (`peer.c`)

The loop of `peer_run` on what it really reads: a datagram over the bytes that were on the stack, and what one
`read` of standard input returns. The lines that `process_user_input` completes are handled one by one, each
with the chunk file that `fopen` finds when its turn comes.
-/

namespace Bittorrent

def buflen : Nat := 1500

/-- A running program: the buffer of standard input and the two sides of the peer. -/
structure Program where
  userbuf : UserIobuf
  peer : Peer

/-- What one iteration of the loop gets from outside. -/
structure Input where
  /-- If the socket is ready: the sender, what was where `buf` is, and the datagram, which is empty if the
  receive fails. -/
  datagram : Option (Addr × Memory × List UInt8 × Clock)
  /-- What `read` returns, if standard input is ready. -/
  stdin : Option (List UInt8)
  /-- What `fopen` finds, and what is in memory, for the line that has so many behind it. -/
  fopen : Nat → String → Option (List UInt8)
  stale : Nat → Stale
  sendPass : Nat → Pass
  cleanNow : Time
  crashClk : Clock

namespace Peer

/-- What a call that comes after another one logs stands behind. -/
def andThen (r : Except Fault (Peer × PeerLog)) (next : Peer → Except Fault (Peer × PeerLog)) :
    Except Fault (Peer × PeerLog) :=
  match r with
  | .error f => .error f
  | .ok (s, l) =>
    match next s with
    | .error f => .error f
    | .ok (s', l') => .ok (s', l ++ l')

/-- `create_file(outf, BT_CHUNK_SIZE)`. -/
def created (s : Peer) (outf : String) : Peer :=
  { s with downloads := { s.downloads with
      files := Function.update s.downloads.files outf (createFile (s.downloads.files outf)) } }

/-- `process_get`. -/
def processGet (env : Env) (input : Input) (k : Nat) (chunkf outf : String) (s : Peer) :
    Except Fault (Peer × PeerLog) :=
  if s.downloads.currentRequest.isSome then .ok (s, [])
  else
    match parseHasGetChunkFile (input.stale k) (input.fopen k chunkf) (some outf) with
    | .error f => .error f
    | .ok none => .ok (s, [])
    | .ok (some request) =>
      match whohasFlooding env request with
      | .error f => .error f
      | .ok sent =>
        .ok ({ s with downloads := { s.downloads with currentRequest := some request } }, sent.map .inr)

/-- `handle_user_input`. -/
def handleUserInput (env : Env) (input : Input) (k : Nat) (line : List UInt8) (s : Peer) :
    Except Fault (Peer × PeerLog) :=
  match scanGet (cString line) with
  | none => .ok (s, [])
  | some (chunkf, outf) => (s.created outf).processGet env input k chunkf outf

/-- `handle_line` for each line that is complete. -/
def handleLines (env : Env) (input : Input) : List (List UInt8) → Peer → Except Fault (Peer × PeerLog)
  | [], s => .ok (s, [])
  | line :: lines, s =>
    andThen (s.handleUserInput env input lines.length line) (handleLines env input lines)

/-- `process_inbound_udp`, if the socket is ready. -/
def readSocket (env : Env) (input : Input) (s : Peer) : Except Fault (Peer × PeerLog) :=
  match input.datagram with
  | none => .ok (s, [])
  | some (src, stack, datagram, clk) =>
    processInboundUdp env src (receiveInto stack (datagram.take buflen)) clk s

/-- The rest of the loop: `send_data_packets`, `clean_upload_timeout`, `download_peer_crash_wrapper` and the
end of a finished request. -/
def serve (env : Env) (input : Input) (s : Peer) : Except Fault (Peer × PeerLog) :=
  let (sent, l) := sendDataPackets env input.sendPass s.uploads
  let (cleaned, l') := cleanUploadTimeout input.cleanNow sent
  match downloadPeerCrashWrapper env input.crashClk cleaned.net.rto s.downloads with
  | .error f => .error f
  | .ok (d, l'') => .ok (⟨cleaned, finishRequest d⟩, l.map .inl ++ l'.map .inl ++ l''.map .inr)

end Peer

/-- `process_user_input`, if standard input is ready: the buffer and the lines that are complete. -/
def Program.readStdin (input : Input) (p : Program) : Except Fault (UserIobuf × List (List UInt8)) :=
  match input.stdin with
  | none => .ok (p.userbuf, [])
  | some bytes => processUserInput bytes p.userbuf

/-- One iteration of the loop of `peer_run`. -/
def Program.iterate (env : Env) (input : Input) (p : Program) : Except Fault (Program × PeerLog) :=
  match p.peer.readSocket env input with
  | .error f => .error f
  | .ok (s, l) =>
    match p.readStdin input with
    | .error f => .error f
    | .ok (userbuf, lines) =>
      match Peer.andThen (s.handleLines env input lines) (Peer.serve env input) with
      | .error f => .error f
      | .ok (s, l') => .ok (⟨userbuf, s⟩, l ++ l')

def programMachine (env : Env) :
    Machine Program Input ((Nat × StreamAction) ⊕ DownloadAction) Fault where
  step := Program.iterate env

/-- `create_userbuf` and the tables of `peer_run`. -/
def initProgram (max : Nat) (unset : Nat → UnsetSlot) (has : List Chunk) (files : String → Memory) :
    Program :=
  ⟨createUserbuf, initPeer max unset has files⟩

end Bittorrent
