import Bittorrent.Model.Download
import Bittorrent.Model.Upload

/-!
# A peer (`peer.c`)

The two sides of a running peer, the dispatch of `process_inbound_udp`, and the main loop of
`peer_run`. The sides meet in two places: a GET is answered from the has-chunk table of the
downloading side, and a download times out after the `RTO` that the uploading side measures.
-/

namespace Bittorrent

structure Peer where
  uploads : Uploads
  downloads : Downloads

/-! ## The log -/

/-- What happened at an upload slot, or on the downloading side. -/
abbrev PeerLog := List ((Nat × StreamAction) ⊕ DownloadAction)

def PeerLog.uploads (log : PeerLog) : UploadLog := log.filterMap Sum.getLeft?

def PeerLog.downloads (log : PeerLog) : DownloadLog := log.filterMap Sum.getRight?

section

variable (log l : PeerLog) (up : UploadLog) (down : DownloadLog)

@[simp] theorem uploads_append : (log ++ l).uploads = log.uploads ++ l.uploads :=
  List.filterMap_append

@[simp] theorem downloads_append : (log ++ l).downloads = log.downloads ++ l.downloads :=
  List.filterMap_append

@[simp] theorem uploads_inl : PeerLog.uploads (up.map .inl) = up := by
  simp [PeerLog.uploads, List.filterMap_map, Function.comp_def]

@[simp] theorem downloads_inl : PeerLog.downloads (up.map .inl) = [] := by
  simp [PeerLog.downloads, List.filterMap_map, Function.comp_def]

@[simp] theorem uploads_inr : PeerLog.uploads (down.map .inr) = [] := by
  simp [PeerLog.uploads, List.filterMap_map, Function.comp_def]

@[simp] theorem downloads_inr : PeerLog.downloads (down.map .inr) = down := by
  simp [PeerLog.downloads, List.filterMap_map, Function.comp_def]

end

/-! ## Inbound packets (`process_inbound_udp`) -/

namespace Peer

/-- A step of the uploading side. -/
def upload (s : Peer) (r : Except Fault (Uploads × UploadLog)) : Except Fault (Peer × PeerLog) :=
  match r with
  | .error f => .error f
  | .ok (u, l) => .ok ({ s with uploads := u }, l.map .inl)

/-- A step of the downloading side. -/
def download (s : Peer) (r : Except Fault (Downloads × DownloadLog)) :
    Except Fault (Peer × PeerLog) :=
  match r with
  | .error f => .error f
  | .ok (d, l) => .ok ({ s with downloads := d }, l.map .inr)

end Peer

/-- `short peer_id = bt_peer_id(from)`. -/
def peerIdFrom (env : Env) (src : Addr) : Int := (btPeerId env src).bmod (2 ^ 16)

/-- The GET case, with its check that the chunk is there: the hash is read where `header_length`
says. -/
def inboundGetPacket (env : Env) (peerId : Int) (packet : Incoming) (clk : Clock) (s : Peer) :
    Except Fault (Peer × PeerLog) :=
  let chunkHash := readHash packet.buf packet.headerLength
  if findChunk chunkHash s.downloads.hasChunkTable then
    s.upload (.ok (inboundGet peerId (getChunkId chunkHash env.totalChunkTable) clk s.uploads))
  else .ok (s, [])

/-- `process_inbound_udp`, from the buffer as `spiffy_recvfrom` leaves it: a failed receive is
noticed and the buffer read all the same. -/
def processInboundUdp (env : Env) (src : Addr) (packet : Incoming) (clk : Clock) (s : Peer) :
    Except Fault (Peer × PeerLog) :=
  if validatePacket packet.magicNumber packet.versionNumber packet.packetType then
    let peerId := peerIdFrom env src
    if packet.packetType = PacketType.whohas then
      s.download (inboundWhohas src packet s.downloads)
    else if packet.packetType = PacketType.ihave then
      s.download (inboundIhave src peerId packet clk s.downloads)
    else if packet.packetType = PacketType.get then inboundGetPacket env peerId packet clk s
    else if packet.packetType = PacketType.data then
      s.download (inboundData env src peerId packet clk s.downloads)
    else if packet.packetType = PacketType.ack then
      s.upload (inboundAck env peerId packet.ackNumber clk s.uploads)
    else s.download (.ok (inboundDenied peerId s.downloads, []))
  else .ok (s, [])

/-! ## The main loop (`peer_run`) -/

inductive PeerEvent
  | packet (src : Addr) (packet : Incoming) (clk : Clock)
  | line (outf : String) (parsed : Option (List (Int × Hash)))
  | send (pass : Nat → Pass)
  | clean (now : Time)
  | crash (clk : Clock)
  | finish

def peerMachine (env : Env) :
    Machine Peer PeerEvent ((Nat × StreamAction) ⊕ DownloadAction) Fault where
  step
    | .packet src packet clk, s => processInboundUdp env src packet clk s
    | .line outf parsed, s => s.download (userGet env outf parsed s.downloads)
    | .send pass, s => s.upload (.ok (sendDataPackets env pass s.uploads))
    | .clean now, s => s.upload (.ok (cleanUploadTimeout now s.uploads))
    | .crash clk, s => s.download (downloadPeerCrashWrapper env clk s.uploads.net.rto s.downloads)
    | .finish, s => s.download (.ok (finishRequest s.downloads, []))

/-- What one iteration of the main loop reads: a packet if the socket is ready, the lines that
standard input completes, and the clock. -/
structure Iteration where
  packet : Option (Addr × Incoming × Clock)
  lines : List (String × Option (List (Int × Hash)))
  sendPass : Nat → Pass
  cleanNow : Time
  crashClk : Clock

/-- The body of the loop of `peer_run`, in its order. -/
def Iteration.events (it : Iteration) : List PeerEvent :=
  (it.packet.map fun (src, packet, clk) => .packet src packet clk).toList ++
    it.lines.map (fun (outf, parsed) => .line outf parsed) ++
    [.send it.sendPass, .clean it.cleanNow, .crash it.crashClk, .finish]

/-- `peer_run`, one iteration a step. -/
def peerRun (env : Env) : Machine Peer Iteration ((Nat × StreamAction) ⊕ DownloadAction) Fault :=
  (peerMachine env).batch Iteration.events

/-- The start of `peer_run`, with the tables it reads from the chunk files. -/
def initPeer (max : Nat) (unset : Nat → UnsetSlot) (has : List Chunk) (files : String → Memory) :
    Peer :=
  ⟨initUploads max unset, initDownloads max has files⟩

end Bittorrent
