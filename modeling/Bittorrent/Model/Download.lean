import Bittorrent.Lib.Machine
import Bittorrent.Lib.Table
import Bittorrent.Model.Packet

/-!
# The downloading side (`keep_track.c`, `util.c`, `process_inbound_udp`)

The download slots, the current request, the connections, the has-chunk table and the files, and
every handler that changes them. A chunk entry is named by its position in the request's table, as
`chunk_pointer` does; the source names it by its hash in a slot and by its id elsewhere. The log
records the packets sent and, for the entry and the slot concerned, what the pick functions,
`start_download`, `save_data_packet` and `save_chunk` did.
-/

namespace Bittorrent

/-! ## State -/

/-- `struct packet_record`, without its link. -/
structure PacketRecord where
  seq : Nat
  length : Nat
  deriving DecidableEq

/-- The entries of the download arrays for one slot; a `download_chunk_map` entry that was never set,
or was freed, is `none`. -/
structure DownloadSlot where
  downloadId : Int
  downloadChunk : Option Hash
  lastAckedRecord : List PacketRecord
  downloadLastTime : Time

inductive ConnectionState
  | working | notWorking
  deriving DecidableEq, Repr

/-- `struct connection`: of a connection's chunks only the hashes are ever set. -/
structure Connection where
  peerId : Int
  chunks : List Hash
  state : ConnectionState

structure Downloads where
  slots : List DownloadSlot
  currentRequest : Option Request
  connections : List Connection
  hasChunkTable : List Chunk
  files : String → Memory

inductive DownloadAction
  | sent (dst : Option Addr) (message : Message)
  /-- A pick function marked the entry RECEIVING. -/
  | picked (entry : Nat)
  /-- `start_download` took the slot for a peer, for the entry just picked. -/
  | handed (index : Nat) (peerId : Int) (entry : Nat)
  /-- The expected-packet branch ran for the slot: the packet and the entry it was saved to. -/
  | accepted (index : Nat) (peerId : Int) (seq entry size : Nat)
  /-- `save_chunk` returned 1 for the entry. -/
  | completed (entry : Nat)
  /-- `save_chunk` wrote bytes that hash to the entry's hash. -/
  | verified (hash : Hash) (bytes : List UInt8)

abbrev DownloadLog := List DownloadAction

/-- `get_download_index_by_id`, with the row found. -/
def getDownloadIndexById (id : Int) (d : Downloads) : Option (Nat × DownloadSlot) :=
  Table.lookup (·.downloadId) id d.slots

def Downloads.write (d : Downloads) (index : Nat) (slot : DownloadSlot) : Downloads :=
  { d with slots := d.slots.set index slot }

/-- Write an entry of `current_request->chunks`. -/
def Downloads.writeChunk (d : Downloads) (entry : Nat) (chunk : Chunk) : Downloads :=
  { d with
    currentRequest := d.currentRequest.map fun r => { r with chunks := r.chunks.set entry chunk } }

/-- `init_tracker` and the start of `peer_run`: `max` free slots and no request. -/
def initDownloads (max : Nat) (hasChunkTable : List Chunk) (files : String → Memory) :
    Downloads where
  slots := List.replicate max ⟨idNull, none, [], 0⟩
  currentRequest := none
  connections := []
  hasChunkTable := hasChunkTable
  files := files

/-! ## The tracker (`keep_track.c`) -/

/-- `add_record`: the new record goes right behind its predecessor, or nowhere. -/
def addRecord (seq length : Nat) : List PacketRecord → List PacketRecord
  | [] => [⟨seq, length⟩]
  | [root] => if wrap32 (root.seq + 1) = seq then [root, ⟨seq, length⟩] else [root]
  | root :: next :: rest =>
    if next.seq < seq then root :: addRecord seq length (next :: rest)
    else if wrap32 (root.seq + 1) = seq then root :: ⟨seq, length⟩ :: next :: rest
    else root :: next :: rest

/-- The records from the largest continuous sequence number on. -/
def skipContinuous : List PacketRecord → List PacketRecord
  | node :: next :: rest =>
    if wrap32 (node.seq + 1) = next.seq then skipContinuous (next :: rest) else node :: next :: rest
  | records => records

/-- `track_data_packet`, with the last continuous sequence number it returns. -/
def trackDataPacket (peerId : Int) (seq length : Nat) (now : Time) (d : Downloads) :
    Nat × Downloads :=
  match getDownloadIndexById peerId d with
  | none => (seq, d)
  | some (index, slot) =>
    match skipContinuous (addRecord seq length slot.lastAckedRecord) with
    | [] => (seq, d) -- not reached: the record list is never empty
    | root :: rest =>
      (root.seq, d.write index { slot with lastAckedRecord := root :: rest, downloadLastTime := now })

/-- `start_download`, with the slot it took. -/
def startDownload (peerId : Int) (chunkHash : Hash) (clk : Clock) (d : Downloads) :
    Option (Nat × Downloads) :=
  match getDownloadIndexById idNull d with
  | none => none
  | some (index, slot) =>
    let d := d.write index { slot with
      downloadId := peerId, downloadChunk := some chunkHash, downloadLastTime := clk 1 }
    -- seq will start at 1, so add a root node
    some (index, (trackDataPacket peerId 0 1 (clk 2) d).2)

/-- `abort_download`. -/
def abortDownload (peerId : Int) (d : Downloads) : Downloads :=
  match getDownloadIndexById peerId d with
  | none => d
  | some (index, slot) =>
    d.write index { slot with downloadId := idNull, downloadChunk := none, lastAckedRecord := [] }

/-- `milli_time() - download_last_time[i] > ABORT_COEFF * RTO`. -/
def DownloadSlot.timedOut (now : Time) (rto : Int) (slot : DownloadSlot) : Bool :=
  slot.downloadId ≠ idNull ∧ expired now slot.downloadLastTime (abortLimit rto)

/-- `clean_download_timeout`: the peer and the hash of the first idle slot, and the slots after
`abort_download` of that peer. -/
def cleanDownloadTimeout (now : Time) (rto : Int) (d : Downloads) :
    Except Fault (Option (Int × Hash × Downloads)) :=
  match d.slots.find? (DownloadSlot.timedOut now rto) with
  | none => .ok none
  | some slot =>
    match slot.downloadChunk with
    | none => .error .nullDeref
    | some hash => .ok (some (slot.downloadId, hash, abortDownload slot.downloadId d))

/-! ## Chunk tables (`util.c`) -/

/-- `find_chunk`. -/
def findChunk (hash : Hash) (table : List Chunk) : Bool := table.any fun c => c.hash = hash

/-- `get_chunk_id`: the id of the first entry with the hash, -1 if there is none. -/
def getChunkId (hash : Hash) (table : List Chunk) : Int :=
  match Table.lookup (·.hash) hash table with
  | none => -1
  | some (_, chunk) => chunk.id

/-- The first unfinished entry whose hash is offered. -/
def pickEntry (offered : Hash → Bool) (d : Downloads) : Option (Nat × Chunk) :=
  match d.currentRequest with
  | none => none
  | some request =>
    Table.lookup (fun c => decide (c.state = .notStarted) && offered c.hash) true request.chunks

/-- `peer_contain_chunk`. -/
def peerContainChunk (connections : List Connection) (peerId : Int) (hash : Hash) : Bool :=
  connections.any fun c => c.peerId = peerId ∧ c.chunks.any fun h => hash = h

/-- The entry `pick_a_chunk` marks. -/
def pickAChunk (packet : Incoming) (d : Downloads) : Option (Nat × Chunk) :=
  pickEntry (packetContainChunk packet) d

/-- The entry `pick_a_new_chunk` marks. -/
def pickANewChunk (peerId : Int) (d : Downloads) : Option (Nat × Chunk) :=
  pickEntry (peerContainChunk d.connections peerId) d

/-- The peer and the entry `pick_a_chunk_after_crash` marks: of the first idle connection with an
unfinished chunk. -/
def pickAChunkAfterCrash (d : Downloads) : Option (Int × Nat × Chunk) :=
  d.connections.findSome? fun c =>
    if c.state = .notWorking then (pickANewChunk c.peerId d).map fun r => (c.peerId, r) else none

/-- `update_ihave_table`. -/
def updateIhaveTable (env : Env) (chunk : Chunk) (table : List Chunk) : List Chunk :=
  if getChunkId chunk.hash table ≠ -1 then table
  else table ++ [{ id := getChunkId chunk.hash env.totalChunkTable, hash := chunk.hash,
                   state := .owned, data := none, receivedSeqNumber := 0, receivedByteNumber := 0 }]

/-- `data_size` of `save_data_packet`. -/
def Incoming.payloadSize (packet : Incoming) : Nat :=
  min (packet.packetLength - packet.headerLength) maxPayloadSize

/-- `save_data_packet`, on the entry it is given. -/
def saveDataPacket (packet : Incoming) (chunk : Chunk) : Except Fault Chunk :=
  if chunk.state = .owned then .ok chunk
  else
    let size := packet.payloadSize
    let data := if chunk.data.isNone ∧ chunk.state = .receiving then some fun _ => 0 else chunk.data
    let chunk := { chunk with data, receivedSeqNumber := toInt32 packet.seqNumber }
    if size = 0 then .ok chunk
    else
      match data with
      | none => .error .nullDeref
      | some buf =>
        if chunk.receivedByteNumber + size ≤ btChunkSize then
          .ok { chunk with
            data := some (copyBytes buf chunk.receivedByteNumber
              (fun k => packet.buf (packet.headerLength + k)) size)
            receivedByteNumber := chunk.receivedByteNumber + size }
        else .error .overflow

/-- `chunk->id * BT_CHUNK_SIZE`, an `int`. -/
def chunkOffset (chunkId : Int) : Int := toInt32 (chunkId * btChunkSize)

/-- `save_chunk`; `none` when it returns -1. -/
def saveChunk (env : Env) (entry : Nat) (d : Downloads) :
    Except Fault (Option (Downloads × DownloadLog)) :=
  match d.currentRequest with
  | none => .error .nullDeref
  | some request =>
    match request.chunks[entry]? with
    | none => .error .nullDeref
    | some chunk =>
      if chunk.receivedByteNumber = btChunkSize ∧ chunk.state ≠ .owned then
        match chunk.data with
        | none => .error .nullDeref
        | some data =>
          let bytes := readBytes data 0 btChunkSize
          let cleared := { chunk with data := none, receivedSeqNumber := 0, receivedByteNumber := 0 }
          if env.shahash bytes = chunk.hash then
            let files := match request.filename with
              | none => d.files
              | some name => Function.update d.files name
                  (writeFile (d.files name) data btChunkSize (chunkOffset chunk.id)
                    (env.writes name (chunkOffset chunk.id)))
            .ok (some ({ d with
              files := files
              hasChunkTable := updateIhaveTable env chunk d.hasChunkTable }.writeChunk entry
                { cleared with state := .owned },
              [.completed entry, .verified chunk.hash bytes]))
          else
            .ok (some (d.writeChunk entry { cleared with state := .notStarted }, [.completed entry]))
      else .ok none

/-- `all_chunk_finished`. -/
def allChunkFinished (d : Downloads) : Bool :=
  match d.currentRequest with
  | none => false
  | some request => request.chunks.all fun c => c.state = .owned

/-! ## Connections (`util.c`) -/

/-- `update_chunks`: as many hashes as the packet length says. -/
def updateChunks (packet : Incoming) : List Hash :=
  (List.range ((packet.packetLength - 20) / 20)).map packet.hashAt

/-- `*chunk_count = (packet_length-20)/20`, an `int`. -/
def updateCount (packet : Incoming) : Int := ((packet.packetLength : Int) - 20).tdiv 20

/-- The loop of `update_chunks`, with its `int i`. -/
def updateLoop (packet : Incoming) : Nat → Int → Except Fault (List Hash)
  | 0, _ => .error .diverge
  | fuel + 1, i =>
    if i < updateCount packet then
      match updateLoop packet fuel (toInt32 (i + 1)) with
      | .error f => .error f
      | .ok hashes => .ok (packet.hashAt i.toNat :: hashes)
    else .ok []

/-- `update_connections`. -/
def updateConnections (peerId : Int) (packet : Incoming) (d : Downloads) : Downloads :=
  match Table.lookup (·.peerId) peerId d.connections with
  | some (index, c) =>
    { d with connections := d.connections.set index { c with chunks := updateChunks packet } }
  | none =>
    { d with connections := ⟨peerId, updateChunks packet, .notWorking⟩ :: d.connections }

/-- `mark_peer_state`. -/
def markPeerState (peerId : Int) (state : ConnectionState) (d : Downloads) : Downloads :=
  match Table.lookup (·.peerId) peerId d.connections with
  | some (index, c) => { d with connections := d.connections.set index { c with state } }
  | none => d

/-! ## Inbound packets (`process_inbound_udp`) -/

/-- `start_download` for a picked entry, and the GET that goes out if a slot was free. -/
def openStream (dst : Option Addr) (peerId : Int) (entry : Nat) (chunk : Chunk) (clk : Clock)
    (d : Downloads) : Downloads × DownloadLog :=
  match startDownload peerId chunk.hash clk d with
  | none => (d, [.picked entry])
  | some (index, d) =>
    (d, [.picked entry, .handed index peerId entry, .sent dst (.get chunk.hash)])

/-- What the IHAVE case and the end of a chunk do with the entry picked for the sender. -/
def assign (src : Addr) (peerId : Int) (picked : Option (Nat × Chunk)) (clk : Clock)
    (d : Downloads) : Downloads × DownloadLog :=
  match picked with
  | none => (markPeerState peerId .notWorking d, [])
  | some (entry, chunk) =>
    openStream (some src) peerId entry chunk clk
      (markPeerState peerId .working (d.writeChunk entry { chunk with state := .receiving }))

/-- The WHOHAS case, `make_packet(IHAVE, ...)`: the hashes found are copied to a 1484-byte payload. -/
def inboundWhohas (src : Addr) (packet : Incoming) (d : Downloads) :
    Except Fault (Downloads × DownloadLog) :=
  let hashes := ((List.range packet.chunkCount).map packet.hashAt).filter fun h =>
    findChunk h d.hasChunkTable
  if hashes = [] then .ok (d, [])
  else if hashes.length ≤ chunkPerPacket then .ok (d, [.sent (some src) (.ihave hashes)])
  else .error .overflow

/-- The IHAVE case. -/
def inboundIhave (src : Addr) (peerId : Int) (packet : Incoming) (clk : Clock) (d : Downloads) :
    Except Fault (Downloads × DownloadLog) :=
  match printIncomingPacket packet with
  | .error f => .error f
  | .ok _ =>
    let d := updateConnections peerId packet d
    if d.currentRequest.isSome then .ok (assign src peerId (pickAChunk packet d) clk d)
    else .ok (d, [])

/-- The expected packet: save it to the entry at position `entry`, and when that completes the
entry close the stream and look for the sender's next chunk. -/
def acceptData (env : Env) (src : Addr) (index : Nat) (peerId : Int) (packet : Incoming)
    (entry : Nat) (chunk : Chunk) (clk : Clock) (d : Downloads) :
    Except Fault (Downloads × DownloadLog) :=
  match saveDataPacket packet chunk with
  | .error f => .error f
  | .ok chunk =>
    let d := d.writeChunk entry chunk
    let accepted := [.accepted index peerId packet.seqNumber entry packet.payloadSize]
    match saveChunk env entry d with
    | .error f => .error f
    | .ok none => .ok (d, accepted)
    | .ok (some (d, saved)) =>
      let d := abortDownload peerId d
      let (d, next) := assign src peerId (pickANewChunk peerId d) clk d
      .ok (d, accepted ++ saved ++ next)

/-- The DATA case. -/
def inboundData (env : Env) (src : Addr) (peerId : Int) (packet : Incoming) (clk : Clock)
    (d : Downloads) : Except Fault (Downloads × DownloadLog) :=
  match getDownloadIndexById peerId d with
  | none => .ok (d, [])
  | some (index, slot) =>
    match slot.downloadChunk, d.currentRequest with
    | some chunkHash, some request =>
      let chunkId := getChunkId chunkHash request.chunks
      if chunkId < 0 then .ok (d, [])
      else
        match request.chunks[chunkId.toNat]? with
        | none => .ok (d, []) -- chunk_id >= chunk_number
        | some chunk =>
          let (last, d) := trackDataPacket peerId packet.seqNumber packet.dataLength (clk 0) d
          let acked := [.sent (some src) (.ack last)]
          if packet.seqNumber < last then .ok (d, acked)
          else if packet.seqNumber > last then .ok (d, acked)
          else
            match acceptData env src index peerId packet chunkId.toNat chunk clk d with
            | .error f => .error f
            | .ok (d, saved) => .ok (d, acked ++ saved)
    | _, _ => .error .nullDeref

/-- The DENIED case. -/
def inboundDenied (peerId : Int) (d : Downloads) : Downloads := abortDownload peerId d

/-! ## Crashes (`util.c`) -/

/-- The reset of the first entry with the hash in `download_peer_crash`. -/
def resetChunk (hash : Hash) (d : Downloads) : Downloads :=
  match d.currentRequest with
  | none => d
  | some request =>
    match Table.lookup (·.hash) hash request.chunks with
    | none => d
    | some (entry, chunk) =>
      d.writeChunk entry { chunk with
        state := .notStarted, data := none, receivedSeqNumber := 0, receivedByteNumber := 0 }

/-- `download_peer_crash`, and whether it returned 1. -/
def downloadPeerCrash (now : Time) (rto : Int) (d : Downloads) : Except Fault (Bool × Downloads) :=
  match cleanDownloadTimeout now rto d with
  | .error f => .error f
  | .ok none => .ok (false, d)
  | .ok (some (peerId, hash, d)) =>
    if peerId ≤ 0 ∨ d.connections.isEmpty ∨ d.currentRequest.isNone then .ok (false, d)
    else
      let d := resetChunk hash d
      .ok (d.connections.any fun c => c.peerId = peerId,
        { d with connections := d.connections.eraseP fun c => c.peerId = peerId })

/-- `download_peer_crash_wrapper`. -/
def downloadPeerCrashWrapper (env : Env) (clk : Clock) (rto : Int) (d : Downloads) :
    Except Fault (Downloads × DownloadLog) :=
  match downloadPeerCrash (clk 0) rto d with
  | .error f => .error f
  | .ok (false, d) => .ok (d, [])
  | .ok (true, d) =>
    match pickAChunkAfterCrash d with
    | none => .ok (d, [])
    | some (peerId, entry, chunk) =>
      .ok (openStream (findAddr env peerId) peerId entry chunk clk
        (markPeerState peerId .working (d.writeChunk entry { chunk with state := .receiving })))

/-! ## User requests and the end of a request (`peer.c`) -/

/-- `create_file(outf, BT_CHUNK_SIZE)`: a zero byte at the last position. -/
def createFile (file : Memory) : Memory := writeFile file (fun _ => 0) 1 (btChunkSize - 1) 1

/-- An entry as `parse_has_get_chunk_file` fills it for a GET request. -/
def requestEntry (line : Int × Hash) : Chunk :=
  { id := line.1, hash := line.2, state := .notStarted, data := none, receivedSeqNumber := 0
    receivedByteNumber := 0 }

/-- `whohas_flooding`: every packet to every peer but this one. -/
def whohasFlooding (env : Env) (request : Request) : Except Fault DownloadLog :=
  match makeWhohas request with
  | .error f => .error f
  | .ok packets =>
    .ok ((env.peers.filter fun p => p.id ≠ env.identity).flatMap fun p =>
      packets.map fun m => .sent (some p.addr) m)

/-- `handle_user_input` and `process_get`, given the lines of the chunk file (`none` if it cannot be
opened). -/
def userGet (env : Env) (outf : String) (parsed : Option (List (Int × Hash))) (d : Downloads) :
    Except Fault (Downloads × DownloadLog) :=
  let d := { d with files := Function.update d.files outf (createFile (d.files outf)) }
  match d.currentRequest, parsed with
  | none, some lines =>
    let request : Request := ⟨some outf, lines.map requestEntry⟩
    match whohasFlooding env request with
    | .error f => .error f
    | .ok sent => .ok ({ d with currentRequest := some request }, sent)
  | _, _ => .ok (d, [])

/-- The end of the main loop: a finished request is freed. -/
def finishRequest (d : Downloads) : Downloads :=
  if allChunkFinished d then { d with currentRequest := none } else d

/-! ## The machine -/

inductive DownloadEvent
  | whohas (src : Addr) (packet : Incoming)
  | ihave (src : Addr) (peerId : Int) (packet : Incoming) (clk : Clock)
  | data (src : Addr) (peerId : Int) (packet : Incoming) (clk : Clock)
  | denied (peerId : Int)
  | crash (clk : Clock) (rto : Int)
  | finish
  | userGet (outf : String) (parsed : Option (List (Int × Hash)))

def downloadMachine (env : Env) : Machine Downloads DownloadEvent DownloadAction Fault where
  step
    | .whohas src packet, d => inboundWhohas src packet d
    | .ihave src peerId packet clk, d => inboundIhave src peerId packet clk d
    | .data src peerId packet clk, d => inboundData env src peerId packet clk d
    | .denied peerId, d => .ok (inboundDenied peerId d, [])
    | .crash clk rto, d => downloadPeerCrashWrapper env clk rto d
    | .finish, d => .ok (finishRequest d, [])
    | .userGet outf parsed, d => userGet env outf parsed d

end Bittorrent
