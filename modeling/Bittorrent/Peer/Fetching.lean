import Bittorrent.Peer.Program
import Bittorrent.Stream.Gathering
import Bittorrent.Stream.Handshake

/-!
# Fetching one chunk

A program that asks for one chunk opens a stream at an IHAVE that offers it, and the DATA packets of the chunk,
in their order, fill its entry. Between two packets the downloading side is `receiving`: one record, and the
front of the chunk in the buffer. A packet that leaves room moves the record and the front on
(`receiving_next`), the one that fills the entry closes the stream, and the entry is OWNED if its bytes have the
hash (`receiving_last`). An iteration of the program adds nothing to this while no time passes
(`fetcher_iterate`), so the chunk is fetched in one iteration for the IHAVE and one for every packet
(`chunk_fetched`).

Time stands still at 0 in these runs, which keeps every timer quiet: nothing has been idle and nothing was
sent that could time out (`Calm`). So an iteration is what `process_inbound_udp` makes of its packet, and
what is left to show is that each of the two handlers does to `receiving` what is said above. The induction
over the packets has the front of the chunk as its invariant (`front_fetched`); every packet but the last is
1484 bytes long and leaves room, and the last one fills the entry.
-/

namespace Bittorrent

variable {env : Env} {src : Addr} {hash : Hash} {record : PacketRecord} {now : Time} {data : Option Memory}
  {received : Int} {n : Nat} {p : Incoming} {clk : Clock} {d d' : Downloads} {chunk : Chunk}

/-! ## The downloading side -/

/-- The downloading side just after a GET line that asks for one chunk. -/
def asking (hash : Hash) : Downloads :=
  { initDownloads 1 [] (Function.update (fun _ _ => 0) "out" (createFile fun _ => 0)) with
    currentRequest := some ⟨some "out", [requestEntry (0, hash)]⟩ }

/-- It has one stream, from peer 1, and the entry has received so many bytes. -/
def receiving (hash : Hash) (record : PacketRecord) (now : Time) (data : Option Memory) (received : Int)
    (bytes : Nat) : Downloads :=
  { asking hash with
    slots := [⟨1, some hash, [record], now⟩]
    currentRequest := some ⟨some "out", [⟨0, hash, .receiving, data, received, bytes⟩]⟩
    connections := [⟨1, [hash], .working⟩] }

theorem asking_ihave (stale : Memory) (hash : Hash) (clk : Clock) :
    inboundIhave src 1 (receiveInto stale (Message.ihave [hash]).datagram) clk (asking hash) =
      .ok (receiving hash ⟨0, 1⟩ (clk 2) none 0 0, [.picked 0, .handed 0 1 0, .sent (some src) (.get hash)]) := by
  have hlists : (Message.ihave [hash]).Lists [hash] := Or.inr rfl
  have hsmall : [hash].length ≤ chunkPerPacket := show 1 ≤ chunkPerPacket by decide
  have hoffered := (receive_packetContainChunk stale hlists hsmall hash).mpr List.mem_cons_self
  have hpick : pickAChunk (receiveInto stale (Message.ihave [hash]).datagram)
      { asking hash with connections := [⟨1, [hash], .notWorking⟩] } = some (0, requestEntry (0, hash)) := by
    unfold pickAChunk pickEntry
    simp [asking, Table.lookup, requestEntry, hoffered]
  have hconnected : updateConnections 1 (receiveInto stale (Message.ihave [hash]).datagram) (asking hash) =
      { asking hash with connections := [⟨1, [hash], .notWorking⟩] } := by
    rw [updateConnections, receive_updateChunks stale hlists hsmall]
    rfl
  rw [inboundIhave, printIncomingPacket_ok stale hlists hsmall]
  simp only [hconnected, hpick]
  rfl

theorem copyBytes_zero (dst src : Memory) (off : Nat) : copyBytes dst off src 0 = dst :=
  funext fun k => by rw [copyBytes, if_neg (by omega)]

theorem receiving_buffer (hstate : chunk.state = .receiving) :
    chunk.buffer = some (chunk.data.getD fun _ => 0) := by
  rw [Chunk.buffer]
  cases hdata : chunk.data with
  | none => exact if_pos ⟨rfl, hstate⟩
  | some buf => rfl

theorem saveDataPacket_room (hstate : chunk.state = .receiving)
    (hroom : chunk.receivedByteNumber + p.payloadSize ≤ btChunkSize) : saveDataPacket p chunk = .ok { chunk with
      data := some (copyBytes (chunk.data.getD fun _ => 0) chunk.receivedByteNumber
        (fun k => p.buf (p.headerLength + k)) p.payloadSize)
      receivedSeqNumber := toInt32 p.seqNumber
      receivedByteNumber := chunk.receivedByteNumber + p.payloadSize } := by
  rw [saveDataPacket_eq p (by rw [hstate]; decide), receiving_buffer hstate]
  split_ifs with hzero
  · rw [hzero, copyBytes_zero, Nat.add_zero]
  · rfl

theorem receiving_target (hash : Hash) (record : PacketRecord) (now : Time) (data : Option Memory) (received : Int)
    (n : Nat) : Target (receiving hash record now data received n) 1 0
    ⟨1, some hash, [record], now⟩ hash ⟨some "out", [⟨0, hash, .receiving, data, received, n⟩]⟩ 0
    ⟨0, hash, .receiving, data, received, n⟩ where
  found := rfl
  named := rfl
  current := rfl
  id := by simp [getChunkId, Table.lookup]
  get := rfl

/-- What the entry holds after a payload. -/
def Incoming.saved (p : Incoming) (data : Option Memory) (n : Nat) : Memory :=
  copyBytes (data.getD fun _ => 0) n (fun k => p.buf (p.headerLength + k)) p.payloadSize

theorem receiving_expected (env : Env) (src : Addr) (hash : Hash) (now : Time) (data : Option Memory)
    (received : Int) (n : Nat) (hseq : advance record.seq p.seqNumber = p.seqNumber) (clk : Clock) : ∃ length,
    inboundData env src 1 p clk (receiving hash record now data received n) =
      match acceptData env src 0 1 p 0 ⟨0, hash, .receiving, data, received, n⟩ clk
        (receiving hash ⟨p.seqNumber, length⟩ (clk 0) data received n) with
      | .error f => .error f
      | .ok (d', saved) => .ok (d', .sent (some src) (.ack p.seqNumber) :: saved) := by
  obtain ⟨⟨seq, length⟩, hrecords, hnumber⟩ :=
    advanceRecords_one (show [record] = [record] from rfl) p.seqNumber p.dataLength
  obtain rfl : seq = p.seqNumber := hnumber.trans hseq
  have htarget := receiving_target hash record now data received n
  have htracked := trackDataPacket_eq htarget.found p.seqNumber p.dataLength (clk 0)
  rw [hrecords, List.headD_cons] at htracked
  refine ⟨length, ?_⟩
  rw [inboundData_eq htarget, htracked]
  dsimp only
  rw [if_pos rfl]
  rfl

theorem receiving_next (env : Env) (src : Addr) (hash : Hash) (now : Time) (data : Option Memory) (received : Int)
    (hseq : advance record.seq p.seqNumber = p.seqNumber)
    (hroom : n + p.payloadSize < btChunkSize) (clk : Clock) : ∃ length,
    inboundData env src 1 p clk (receiving hash record now data received n) =
      .ok (receiving hash ⟨p.seqNumber, length⟩ (clk 0) (some (p.saved data n)) (toInt32 p.seqNumber)
        (n + p.payloadSize),
        [.sent (some src) (.ack p.seqNumber), .accepted 0 1 p.seqNumber 0 p.payloadSize]) := by
  obtain ⟨length, hexpected⟩ := receiving_expected env src hash now data received n hseq clk
  refine ⟨length, ?_⟩
  rw [hexpected, acceptData, saveDataPacket_room rfl (Nat.le_of_lt hroom)]
  dsimp only
  rw [saveChunk_short env rfl rfl (Nat.ne_of_lt hroom)]
  rfl

theorem saveChunk_verified {request : Request} {entry : Nat} {buf : Memory} (env : Env)
    (hrequest : d.currentRequest = some request) (hget : request.chunks[entry]? = some chunk)
    (hfull : chunk.receivedByteNumber = btChunkSize) (hstate : chunk.state ≠ .owned) (hdata : chunk.data = some buf)
    (hgood : env.shahash (readBytes buf 0 btChunkSize) = chunk.hash) : saveChunk env entry d =
      .ok (some ((d.store env request.filename chunk buf).writeChunk entry (chunk.reset .owned),
        [.completed entry, .verified chunk.hash (readBytes buf 0 btChunkSize)])) := by
  obtain ⟨d', hsaved⟩ := saveChunk_full env hrequest hget hfull hstate hdata
  obtain ⟨-, -, data, hsame, ⟨hbad, -⟩ | ⟨-, hr⟩⟩ := saveChunk_some hrequest hget hsaved
  · cases hdata.symm.trans hsame
    exact absurd hgood hbad
  · cases hdata.symm.trans hsame
    rw [hsaved, hr]

/-- The chunk is stored and OWNED, and its stream is closed. -/
def fetched (env : Env) (hash : Hash) (now : Time) (data : Memory) : Downloads where
  slots := [⟨idNull, none, [], now⟩]
  currentRequest := some ⟨some "out", [⟨0, hash, .owned, none, 0, 0⟩]⟩
  connections := [⟨1, [hash], .notWorking⟩]
  hasChunkTable := updateIhaveTable env (requestEntry (0, hash)) []
  files := storeChunk env (some "out") 0 data (asking hash).files

theorem receiving_last (env : Env) (src : Addr) (now : Time) (received : Int)
    (hseq : advance record.seq p.seqNumber = p.seqNumber) (hfull : n + p.payloadSize = btChunkSize)
    (hgood : env.shahash (readBytes (p.saved data n) 0 btChunkSize) = hash) (clk : Clock) :
    inboundData env src 1 p clk (receiving hash record now data received n) =
      .ok (fetched env hash (clk 0) (p.saved data n), [.sent (some src) (.ack p.seqNumber),
        .accepted 0 1 p.seqNumber 0 p.payloadSize, .completed 0,
        .verified hash (readBytes (p.saved data n) 0 btChunkSize)]) := by
  obtain ⟨length, hexpected⟩ := receiving_expected env src hash now data received n hseq clk
  have hsave := @saveChunk_verified
    ((receiving hash ⟨p.seqNumber, length⟩ (clk 0) data received n).writeChunk 0
      ⟨0, hash, .receiving, some (p.saved data n), toInt32 p.seqNumber, btChunkSize⟩)
    ⟨0, hash, .receiving, some (p.saved data n), toInt32 p.seqNumber, btChunkSize⟩ _ 0 _ env rfl rfl rfl
    ChunkState.noConfusion rfl hgood
  rw [hexpected, acceptData, saveDataPacket_room rfl (Nat.le_of_eq hfull)]
  dsimp only
  rw [hfull, ← Incoming.saved, hsave]
  rfl

/-! ## The program -/

/-- A program with nothing to upload. -/
def fetcher (d : Downloads) : Program := ⟨createUserbuf, initUploads 1 fun _ => unsetZero, d⟩

/-- An iteration in which a message of peer 1 is read. -/
def messageInput (m : Message) : Input :=
  { idleInput with datagram := some (sampleSrc, fun _ => 0, m.datagram, fun _ => 0) }

def fetchEnv (sha : List UInt8 → Hash) : Env := { sampleEnv with shahash := sha }

/-- No stream of the state has been idle at time 0. -/
def Calm (d : Downloads) : Prop := cleanDownloadTimeout 0 (initUploads 1 fun _ => unsetZero).net.rto d = .ok none

theorem calm_receiving (hash : Hash) (record : PacketRecord) (data : Option Memory) (received : Int) (n : Nat) :
    Calm (receiving hash record 0 data received n) := by
  have hslot : DownloadSlot.timedOut 0 (initUploads 1 fun _ => unsetZero).net.rto ⟨1, some hash, [record], 0⟩ =
      false := by
    rw [DownloadSlot.timedOut]
    have hfresh : ¬ expired 0 0 (abortLimit (initUploads 1 fun _ => unsetZero).net.rto) = true := by decide
    exact decide_eq_false fun h => hfresh h.2
  simp only [Calm, cleanDownloadTimeout, receiving, List.find?_cons, hslot, List.find?_nil]

theorem finishRequest_receiving (hash : Hash) (record : PacketRecord) (now : Time) (data : Option Memory)
    (received : Int) (n : Nat) :
    finishRequest (receiving hash record now data received n) = receiving hash record now data received n :=
  if_neg (by simp [allChunkFinished, receiving])

theorem fetcher_serve (sha : List UInt8 → Hash) (m : Message) (hcalm : Calm d) :
    (fetcher d).peer.serve (fetchEnv sha) (messageInput m) = .ok ((fetcher (finishRequest d)).peer, []) := by
  have hcrash : downloadPeerCrashWrapper (fetchEnv sha) (fun _ => 0) (initUploads 1 fun _ => unsetZero).net.rto d =
      .ok (d, []) := by
    rw [downloadPeerCrashWrapper, downloadPeerCrash, hcalm]
  have hidle : (fetcher d).peer.serve (fetchEnv sha) (messageInput m) =
      match downloadPeerCrashWrapper (fetchEnv sha) (fun _ => 0) (initUploads 1 fun _ => unsetZero).net.rto d with
      | .error f => .error f
      | .ok (d, l) => .ok ((fetcher (finishRequest d)).peer, l.map .inr) := rfl
  rw [hidle, hcrash]
  rfl

theorem fetcher_iterate {m : Message} {l : PeerLog} (sha : List UInt8 → Hash)
    (hm : m.payload.length ≤ maxPayloadSize)
    (hs : processInboundUdp (fetchEnv sha) sampleSrc (receiveInto (fun _ => 0) m.datagram) (fun _ => 0)
      (fetcher d).peer = .ok ((fetcher d').peer, l)) (hcalm : Calm d') :
    (programMachine (fetchEnv sha)).step (messageInput m) (fetcher d) = .ok (fetcher (finishRequest d'), l) := by
  change (fetcher d).iterate (fetchEnv sha) (messageInput m) = _
  have hlength : m.datagram.length ≤ buflen := (datagram_length hm).trans_le (packetLength_le hm)
  have hread : (fetcher d).peer.readSocket (fetchEnv sha) (messageInput m) = .ok ((fetcher d').peer, l) := by
    rw [← hs, ← List.take_of_length_le hlength]
    rfl
  rw [Program.iterate, hread]
  have hnone : (fetcher d).readStdin (messageInput m) = .ok (createUserbuf, []) := rfl
  simp only [hnone, Peer.handleLines, Peer.andThen, fetcher_serve sha m hcalm, List.append_nil]
  rfl

/-! ## A whole chunk -/

variable {content : List UInt8} {sha : List UInt8 → Hash} {Init : Program → Prop}
  {C : Program → PeerLog → Input → Prop} {log : PeerLog}

theorem saved_bytes (p : Incoming) (data : Option Memory) (n : Nat) : readBytes (p.saved data n) 0 (n + p.payloadSize) =
    readBytes (data.getD fun _ => 0) 0 n ++ readBytes p.buf p.headerLength p.payloadSize := by
  rw [readBytes_append, Nat.zero_add, Incoming.saved, readBytes_copyBytes, readBytes_copyBytes_of_disjoint (by omega)]
  congr 1
  exact List.map_congr_left fun j _ => by rw [Nat.zero_add]

/-- The packet of the chunk that comes behind `n` others. -/
def pieceMessage (content : List UInt8) (n : Nat) : Message := .data (n + 1) (piece content (n + 1))

theorem piece_le (content : List UInt8) (n : Nat) : (piece content (n + 1)).length ≤ maxPayloadSize := by
  rw [piece, List.length_take]
  exact Nat.min_le_left _ _

/-- What is read of it. -/
structure PieceRead (content : List UInt8) (n : Nat) (p : Incoming) : Prop where
  number : p.seqNumber = n + 1
  next : ∀ {record : PacketRecord}, record.seq = n → advance record.seq p.seqNumber = p.seqNumber
  size : p.payloadSize = min maxPayloadSize (btChunkSize - maxPayloadSize * n)
  front : ∀ data : Option Memory, readBytes (data.getD fun _ => 0) 0 (maxPayloadSize * n) =
      content.take (maxPayloadSize * n) →
    readBytes (p.saved data (maxPayloadSize * n)) 0 (maxPayloadSize * n + p.payloadSize) =
      content.take (maxPayloadSize * (n + 1))

theorem pieceRead (hlength : content.length = btChunkSize) (hn : n < maxPacketPerChunk) :
    PieceRead content n (receiveInto (fun _ => 0) (pieceMessage content n).datagram) := by
  have hpiece : (piece content (n + 1)).length = min maxPayloadSize (btChunkSize - maxPayloadSize * n) := by
    rw [piece, List.length_take, List.length_drop, hlength, Nat.add_sub_cancel, Nat.mul_comm]
  have hle := piece_le content n
  have hshort : (pieceMessage content n).packetLength < 2 ^ 16 :=
    (packetLength_le (m := pieceMessage content n) hle).trans_lt (by decide)
  have hnumber : (receiveInto (fun _ => 0) (pieceMessage content n).datagram).seqNumber = n + 1 := by
    rw [receive_seqNumber _ _ hshort, pieceMessage, Message.seqNumber, Nat.mod_eq_of_lt]
    simp only [maxPacketPerChunk] at hn
    omega
  refine ⟨hnumber, fun hseq => ?_, (receive_payloadSize _ hle).trans hpiece, fun data hdata => ?_⟩
  · rw [hseq, hnumber, advance, wrap32, if_pos (Nat.mod_eq_of_lt _)]
    simp only [maxPacketPerChunk] at hn
    omega
  · rw [saved_bytes, hdata, pieceMessage, receive_payloadSize _ hle,
      receive_headerLength (.data (n + 1) (piece content (n + 1))) _ hshort, receive_payload _ hle, piece,
      Nat.add_sub_cancel, Nat.mul_comm n, ← List.take_add, ← Nat.mul_succ]

theorem ihave_fetched (hC : ∀ p log m, C p log (messageInput m))
    (h : (programMachine (fetchEnv sha)).Reach Init C (fetcher (asking hash)) log) : ∃ log,
    (programMachine (fetchEnv sha)).Reach Init C (fetcher (receiving hash ⟨0, 1⟩ 0 none 0 0)) log := by
  have hshort : (Message.ihave [hash]).packetLength < 2 ^ 16 := show hashPacketLength 1 < 2 ^ 16 by decide
  have hread : processInboundUdp (fetchEnv sha) sampleSrc (receiveInto (fun _ => 0) (Message.ihave [hash]).datagram)
      (fun _ => 0) (fetcher (asking hash)).peer = .ok ((fetcher (receiving hash ⟨0, 1⟩ 0 none 0 0)).peer,
        [.inr (.picked 0), .inr (.handed 0 1 0), .inr (.sent (some sampleSrc) (.get hash))]) := by
    rw [processInboundUdp_message _ _ _ _ _ _ hshort]
    exact congrArg (fetcher (asking hash)).peer.download (asking_ihave _ hash _)
  have hpayload : (Message.ihave [hash]).payload.length ≤ maxPayloadSize := by
    have hlength := payload_length (.ihave [hash])
    simp only [Message.packetLength, hashPacketLength, List.length_singleton, sha1HashSize, headerLength,
      chunkNumberAndPaddingSize] at hlength
    rw [maxPayloadSize]
    omega
  have hiterate := fetcher_iterate sha hpayload hread (calm_receiving ..)
  rw [finishRequest_receiving] at hiterate
  exact ⟨_, h.step (hC _ _ _) hiterate⟩

theorem data_fetched {down : DownloadLog} (seq : Nat) (bytes : List UInt8) (hC : ∀ p log m, C p log (messageInput m))
    (h : (programMachine (fetchEnv sha)).Reach Init C (fetcher d) log) (hbytes : bytes.length ≤ maxPayloadSize)
    (hdata : inboundData (fetchEnv sha) sampleSrc 1 (receiveInto (fun _ => 0) (Message.data seq bytes).datagram)
      (fun _ => 0) d = .ok (d', down)) (hcalm : Calm d') :
    ∃ log, (programMachine (fetchEnv sha)).Reach Init C (fetcher (finishRequest d')) log := by
  have hread : processInboundUdp (fetchEnv sha) sampleSrc (receiveInto (fun _ => 0) (Message.data seq bytes).datagram)
      (fun _ => 0) (fetcher d).peer = .ok ((fetcher d').peer, down.map .inr) :=
    processInboundUdp_data (s := (fetcher d).peer) hbytes hdata
  exact ⟨_, h.step (hC _ _ _) (fetcher_iterate (m := .data seq bytes) sha hbytes hread hcalm)⟩

theorem front_fetched (hlength : content.length = btChunkSize) (hC : ∀ p log m, C p log (messageInput m))
    (hstart : (programMachine (fetchEnv sha)).Reach Init C (fetcher (asking hash)) log) (hn : n < maxPacketPerChunk) :
    ∃ record data received log, record.seq = n ∧
      readBytes (data.getD fun _ => 0) 0 (maxPayloadSize * n) = content.take (maxPayloadSize * n) ∧
      (programMachine (fetchEnv sha)).Reach Init C
        (fetcher (receiving hash record 0 data received (maxPayloadSize * n))) log := by
  induction n with
  | zero =>
    obtain ⟨log, hreach⟩ := ihave_fetched hC hstart
    exact ⟨⟨0, 1⟩, none, 0, log, rfl, rfl, hreach⟩
  | succ n ih =>
    obtain ⟨record, data, received, log, hseq, hfront, hreach⟩ := ih (Nat.lt_of_succ_lt hn)
    have hread := pieceRead hlength (Nat.lt_of_succ_lt hn)
    have hnext := hread.next hseq
    have hsize : (receiveInto (fun _ => 0) (pieceMessage content n).datagram).payloadSize = maxPayloadSize := by
      rw [hread.size]
      simp only [maxPacketPerChunk, maxPayloadSize, btChunkSize] at *
      omega
    have hroom : maxPayloadSize * n + (receiveInto (fun _ => 0) (pieceMessage content n).datagram).payloadSize <
        btChunkSize := by
      rw [hsize]
      simp only [maxPacketPerChunk, maxPayloadSize, btChunkSize] at *
      omega
    obtain ⟨length, hdata⟩ := receiving_next (fetchEnv sha) sampleSrc hash 0 data received hnext hroom fun _ => 0
    obtain ⟨log, hreach⟩ := data_fetched (n + 1) (piece content (n + 1)) hC hreach (piece_le content n) hdata
      (calm_receiving ..)
    have hbytes := hread.front data hfront
    rw [finishRequest_receiving] at hreach
    rw [hsize, ← Nat.mul_succ] at hreach hbytes
    exact ⟨⟨_, length⟩, some _, _, log, hread.number, hbytes, hreach⟩

theorem chunk_fetched (hlength : content.length = btChunkSize) (hC : ∀ p log m, C p log (messageInput m))
    (hstart : (programMachine (fetchEnv sha)).Reach Init C (fetcher (asking (sha content))) log) :
    ∃ p log, (programMachine (fetchEnv sha)).Reach Init C p log ∧ p.peer.downloads.currentRequest = none := by
  have hlt : 353 < maxPacketPerChunk := by decide
  obtain ⟨record, data, received, log, hseq, hfront, hreach⟩ := front_fetched hlength hC hstart hlt
  have hread := pieceRead hlength hlt
  have hnext := hread.next hseq
  have hfull : maxPayloadSize * 353 + (receiveInto (fun _ => 0) (pieceMessage content 353).datagram).payloadSize =
      btChunkSize := by
    rw [hread.size]
    decide
  have hbytes := hread.front data hfront
  have hgood : sha (readBytes ((receiveInto (fun _ => 0) (pieceMessage content 353).datagram).saved data
      (maxPayloadSize * 353)) 0 btChunkSize) = sha content := by
    rw [← hfull, hbytes, List.take_of_length_le]
    rw [hlength]
    decide
  have hdata := receiving_last (fetchEnv sha) sampleSrc 0 received hnext hfull hgood fun _ => 0
  obtain ⟨log, hreach⟩ := data_fetched (353 + 1) (piece content (353 + 1)) hC hreach (piece_le content 353) hdata rfl
  exact ⟨_, log, hreach, rfl⟩

end Bittorrent
