import Bittorrent.Peer.Runs
import Bittorrent.Stream.Handshake

/-!
# What a packet is read from

`process_inbound_udp` reads its buffer, and the memory behind it, whatever `spiffy_recvfrom` returned.
`Whole` says that a datagram has every byte that the case of its type may read. Then it does not
matter what else is in the buffer (`inbound_same`), also over a whole run (`run_same`). Of any other
datagram some reachable peer reads bytes that were not received (`depends_whole`).

Each accessor is a lemma of `SameBytes`: within the first `n` bytes it reads the same of both buffers. The
cases of `CaseReceived` list which bytes a handler reads, and their lemmas turn `Whole` into what the
accessors ask for; each handler is then rewritten once (`inboundWhohas_same`, `inboundIhave_same`,
`inboundData_same`, `inboundGetPacket_same`), and `inbound_same` is the dispatch. A handler that returns
before it reads asks for less, so the cases have conditions of their own. `run_same` is the induction over
the two runs at once.
-/

namespace Bittorrent

variable {env : Env} {n : Nat} {p p' : Incoming} {s : Peer}

/-! ## Buffers with the same bytes -/

/-- The first `n` bytes of the two buffers are the same. -/
def SameBytes (n : Nat) (p p' : Incoming) : Prop := ∀ k < n, p.buf k = p'.buf k

namespace SameBytes

variable (h : SameBytes n p p')

include h

theorem mono {m : Nat} (hle : m ≤ n) : SameBytes m p p' := fun k hk => h k (by omega)

theorem ntohs {off : Nat} (hoff : off + 2 ≤ n) : ntohs p.buf off = ntohs p'.buf off := by
  rw [Bittorrent.ntohs, Bittorrent.ntohs, h off (by omega), h (off + 1) (by omega)]

theorem ntohl {off : Nat} (hoff : off + 4 ≤ n) : ntohl p.buf off = ntohl p'.buf off := by
  rw [Bittorrent.ntohl, Bittorrent.ntohl, h.ntohs (by omega), h.ntohs (by omega)]

theorem readHash {off : Nat} (hoff : off + sha1HashSize ≤ n) :
    readHash p.buf off = readHash p'.buf off := by
  refine Subtype.ext (List.map_congr_left fun k hk => h _ ?_)
  have hk := List.mem_range.mp hk
  omega

theorem packetType (hn : 4 ≤ n) : p.packetType = p'.packetType := congrArg UInt8.toNat (h 3 (by omega))

theorem valid (hn : 4 ≤ n) : validatePacket p.magicNumber p.versionNumber p.packetType =
    validatePacket p'.magicNumber p'.versionNumber p'.packetType := by
  have hmagic : p.magicNumber = p'.magicNumber := h.ntohs (by omega)
  have hversion : p.versionNumber = p'.versionNumber := congrArg UInt8.toNat (h 2 (by omega))
  rw [hmagic, hversion, h.packetType hn]

theorem headerLength (hn : 6 ≤ n) : p.headerLength = p'.headerLength := h.ntohs (by omega)

theorem packetLength (hn : 8 ≤ n) : p.packetLength = p'.packetLength := h.ntohs (by omega)

theorem seqNumber (hn : 12 ≤ n) : p.seqNumber = p'.seqNumber := h.ntohl (by omega)

theorem ackNumber (hn : 16 ≤ n) : p.ackNumber = p'.ackNumber := h.ntohl (by omega)

theorem chunkCount (hn : 17 ≤ n) : p.chunkCount = p'.chunkCount :=
  congrArg UInt8.toNat (h 16 (by omega))

theorem dataLength (hn : 8 ≤ n) : p.dataLength = p'.dataLength := by
  rw [Incoming.dataLength, Incoming.dataLength, h.packetLength hn, h.headerLength (by omega)]

theorem payloadSize (hn : 8 ≤ n) : p.payloadSize = p'.payloadSize := by
  rw [Incoming.payloadSize, Incoming.payloadSize, h.packetLength hn, h.headerLength (by omega)]

theorem printIncomingPacket (hn : 8 ≤ n) : printIncomingPacket p = printIncomingPacket p' := by
  rw [Bittorrent.printIncomingPacket, Bittorrent.printIncomingPacket, h.packetType (by omega),
    h.packetLength hn]

end SameBytes

/-! ## Whole datagrams -/

/-- What byte `k` of a packet must be for `validate_packet` to let it through. -/
def HeaderByte : Nat → UInt8 → Prop
  | 0, b => b = 0x3C
  | 1, b => b = 0x51
  | 2, b => b = 1
  | 3, b => b.toNat ≤ 5
  | _, _ => True

/-- A received byte makes `validate_packet` reject the packet. -/
def Rejected (n : Nat) (packet : Incoming) : Prop := ∃ k < n, ¬ HeaderByte k (packet.buf k)

/-- `count` hashes behind the chunk count and its padding were received. -/
def HashesReceived (n count : Nat) : Prop := count = 0 ∨ 20 + 20 * count ≤ n

/-- The bytes that the case of the packet's type may read were received: of an IHAVE packet whose
length keeps `print_incoming_packet` from ending it is the length. -/
def CaseReceived (n : Nat) (packet : Incoming) : Prop :=
  if packet.packetType = PacketType.whohas then 17 ≤ n ∧ HashesReceived n packet.chunkCount
  else if packet.packetType = PacketType.ihave then
    8 ≤ n ∧ (printIncomingPacket packet ≠ .ok () ∨
      HashesReceived n ((packet.packetLength - 20) / 20) ∧
        17 ≤ n ∧ HashesReceived n packet.chunkCount)
  else if packet.packetType = PacketType.get then
    6 ≤ n ∧ packet.headerLength + sha1HashSize ≤ n
  else if packet.packetType = PacketType.data then
    12 ≤ n ∧ (packet.payloadSize = 0 ∨ packet.headerLength + packet.payloadSize ≤ n)
  else if packet.packetType = PacketType.ack then 16 ≤ n
  else True

/-- The datagram of `n` bytes has everything that is read of its packet. -/
def Whole (n : Nat) (packet : Incoming) : Prop :=
  Rejected n packet ∨ 4 ≤ n ∧ CaseReceived n packet

theorem valid_iff : validatePacket p.magicNumber p.versionNumber p.packetType = true ↔
    ∀ k < 4, HeaderByte k (p.buf k) := by
  have hmagic : p.magicNumber = magicNumber ↔ p.buf 0 = 0x3C ∧ p.buf 1 = 0x51 := by
    rw [← UInt8.toNat_inj, ← UInt8.toNat_inj]
    change (p.buf 0).toNat * 2 ^ 8 + (p.buf 1).toNat = 15441 ↔
      (p.buf 0).toNat = 60 ∧ (p.buf 1).toNat = 81
    have hlt := (p.buf 1).toNat_lt
    omega
  have hversion : p.versionNumber = versionNumber ↔ p.buf 2 = 1 := by
    rw [← UInt8.toNat_inj]
    rfl
  rw [validatePacket, decide_eq_true_eq, hmagic, hversion]
  constructor
  · rintro ⟨⟨h0, h1⟩, h2, h3⟩ k hk
    match k, hk with
    | 0, _ => exact h0
    | 1, _ => exact h1
    | 2, _ => exact h2
    | 3, _ => exact h3
  · exact fun h => ⟨⟨h 0 (by omega), h 1 (by omega)⟩, h 2 (by omega), h 3 (by omega)⟩

theorem Whole.received (h : Whole n p)
    (hvalid : validatePacket p.magicNumber p.versionNumber p.packetType = true) :
    4 ≤ n ∧ CaseReceived n p := by
  refine h.resolve_left fun ⟨k, _, hbad⟩ => hbad ?_
  by_cases hk : k < 4
  · exact valid_iff.mp hvalid k hk
  · match k, hk with
    | k + 4, _ => trivial

theorem processInboundUdp_invalid {src : Addr} {clk : Clock}
    (h : ¬ validatePacket p.magicNumber p.versionNumber p.packetType = true) :
    processInboundUdp env src p clk s = .ok (s, []) := by rw [processInboundUdp, if_neg h]

theorem caseReceived_whohas (h : p.packetType = PacketType.whohas) :
    CaseReceived n p ↔ 17 ≤ n ∧ HashesReceived n p.chunkCount := by rw [CaseReceived, if_pos h]

theorem caseReceived_ihave (h : p.packetType = PacketType.ihave) :
    CaseReceived n p ↔ 8 ≤ n ∧ (printIncomingPacket p ≠ .ok () ∨
      HashesReceived n ((p.packetLength - 20) / 20) ∧ 17 ≤ n ∧ HashesReceived n p.chunkCount) := by
  rw [CaseReceived, if_neg (by rw [h]; decide), if_pos h]

theorem caseReceived_get (h : p.packetType = PacketType.get) :
    CaseReceived n p ↔ 6 ≤ n ∧ p.headerLength + sha1HashSize ≤ n := by
  rw [CaseReceived, if_neg (by rw [h]; decide), if_neg (by rw [h]; decide), if_pos h]

theorem caseReceived_data (h : p.packetType = PacketType.data) :
    CaseReceived n p ↔
      12 ≤ n ∧ (p.payloadSize = 0 ∨ p.headerLength + p.payloadSize ≤ n) := by
  rw [CaseReceived, if_neg (by rw [h]; decide), if_neg (by rw [h]; decide),
    if_neg (by rw [h]; decide), if_pos h]

theorem caseReceived_ack (h : p.packetType = PacketType.ack) : CaseReceived n p ↔ 16 ≤ n := by
  rw [CaseReceived, if_neg (by rw [h]; decide), if_neg (by rw [h]; decide),
    if_neg (by rw [h]; decide), if_neg (by rw [h]; decide), if_pos h]

/-! ## The handlers -/

theorem hashes_same {count : Nat} (h : SameBytes n p p') (hcount : HashesReceived n count) :
    (List.range count).map p.hashAt = (List.range count).map p'.hashAt := by
  refine List.map_congr_left fun i hi => h.readHash ?_
  have hi := List.mem_range.mp hi
  simp only [HashesReceived, sha1HashSize] at hcount ⊢
  omega

theorem packetContainChunk_same (h : SameBytes n p p') (hn : 17 ≤ n)
    (hcount : HashesReceived n p.chunkCount) : packetContainChunk p = packetContainChunk p' := by
  funext hash
  have hslots : ∀ q : Incoming, packetContainChunk q hash =
      ((List.range q.chunkCount).map q.hashAt).any fun k => hash = k := fun q => by
    rw [packetContainChunk, List.any_map]
    rfl
  rw [hslots, hslots, ← h.chunkCount hn, hashes_same h hcount]

theorem inboundWhohas_same {src : Addr} {d : Downloads} (h : SameBytes n p p') (hn : 17 ≤ n)
    (hcount : HashesReceived n p.chunkCount) : inboundWhohas src p d = inboundWhohas src p' d := by
  rw [inboundWhohas, inboundWhohas, ← h.chunkCount hn, hashes_same h hcount]

theorem inboundIhave_same {src : Addr} {peerId : Int} {clk : Clock} {d : Downloads}
    (h : SameBytes n p p') (hn : 8 ≤ n) (hread : printIncomingPacket p ≠ .ok () ∨
      HashesReceived n ((p.packetLength - 20) / 20) ∧ 17 ≤ n ∧ HashesReceived n p.chunkCount) :
    inboundIhave src peerId p clk d = inboundIhave src peerId p' clk d := by
  rw [inboundIhave, inboundIhave, ← h.printIncomingPacket hn]
  rcases hread with hloop | ⟨hlength, hn, hcount⟩
  · cases hprint : printIncomingPacket p with
    | error f => rfl
    | ok u => exact absurd hprint hloop
  · have hchunks : updateChunks p = updateChunks p' := by
      rw [updateChunks, updateChunks, ← h.packetLength (by omega), hashes_same h hlength]
    have hconnections : updateConnections peerId p d = updateConnections peerId p' d := by
      rw [updateConnections, updateConnections, hchunks]
    have hpick : ∀ d, pickAChunk p d = pickAChunk p' d := fun d => by
      rw [pickAChunk, pickAChunk, packetContainChunk_same h hn hcount]
    simp only [hconnections, hpick]

theorem copyBytes_congr {dst src src' : Memory} {off size : Nat} (h : ∀ k < size, src k = src' k) :
    copyBytes dst off src size = copyBytes dst off src' size := by
  funext k
  rw [copyBytes, copyBytes]
  split_ifs with hk
  · exact h _ (by omega)
  · rfl

theorem saveDataPacket_same {chunk : Chunk} (h : SameBytes n p p') (hn : 12 ≤ n)
    (hread : p.payloadSize = 0 ∨ p.headerLength + p.payloadSize ≤ n) :
    saveDataPacket p chunk = saveDataPacket p' chunk := by
  have hcopy : ∀ dst off, copyBytes dst off (fun k => p.buf (p.headerLength + k)) p.payloadSize =
      copyBytes dst off (fun k => p'.buf (p.headerLength + k)) p.payloadSize :=
    fun dst off => copyBytes_congr fun k hk => h _ (by omega)
  simp only [saveDataPacket, ← h.payloadSize (show 8 ≤ n by omega), ← h.seqNumber hn, hcopy,
    ← h.headerLength (show 6 ≤ n by omega)]

theorem inboundData_same {src : Addr} {peerId : Int} {clk : Clock} {d : Downloads}
    (h : SameBytes n p p') (hn : 12 ≤ n)
    (hread : p.payloadSize = 0 ∨ p.headerLength + p.payloadSize ≤ n) :
    inboundData env src peerId p clk d = inboundData env src peerId p' clk d := by
  have haccept : ∀ index entry chunk d, acceptData env src index peerId p entry chunk clk d =
      acceptData env src index peerId p' entry chunk clk d := fun index entry chunk d => by
    rw [acceptData, acceptData, saveDataPacket_same h hn hread, h.payloadSize (by omega),
      h.seqNumber hn]
  simp only [inboundData, ← h.seqNumber hn, ← h.dataLength (show 8 ≤ n by omega), haccept]

theorem inboundGetPacket_same {peerId : Int} {clk : Clock} (h : SameBytes n p p') (hn : 6 ≤ n)
    (hread : p.headerLength + sha1HashSize ≤ n) :
    inboundGetPacket env peerId p clk s = inboundGetPacket env peerId p' clk s := by
  rw [inboundGetPacket, inboundGetPacket, ← h.headerLength hn, h.readHash hread]

/-- What the buffer holds behind a whole datagram does not matter. -/
theorem inbound_same {src : Addr} {clk : Clock} (h : SameBytes n p p') (hw : Whole n p) :
    processInboundUdp env src p clk s = processInboundUdp env src p' clk s := by
  by_cases hvalid : validatePacket p.magicNumber p.versionNumber p.packetType = true
  · obtain ⟨hn, hread⟩ := hw.received hvalid
    rw [processInboundUdp, processInboundUdp, ← h.valid hn, ← h.packetType hn, if_pos hvalid,
      if_pos hvalid]
    dsimp only
    split_ifs with hwhohas hihave hget hdata hack
    · rw [caseReceived_whohas hwhohas] at hread
      rw [inboundWhohas_same h hread.1 hread.2]
    · rw [caseReceived_ihave hihave] at hread
      rw [inboundIhave_same h hread.1 hread.2]
    · rw [caseReceived_get hget] at hread
      exact inboundGetPacket_same h hread.1 hread.2
    · rw [caseReceived_data hdata] at hread
      rw [inboundData_same h hread.1 hread.2]
    · rw [caseReceived_ack hack] at hread
      rw [h.ackNumber hread]
    · rfl
  · rw [processInboundUdp_invalid hvalid]
    by_cases hn : 4 ≤ n
    · rw [processInboundUdp_invalid (h.valid hn ▸ hvalid)]
    · -- fewer than four bytes, and one of them is not that of a header
      obtain ⟨k, hk, hbad⟩ := hw.resolve_right fun hw => hn hw.1
      rw [processInboundUdp_invalid fun hvalid' => hbad (h k hk ▸ valid_iff.mp hvalid' k (by omega))]

/-! ## Runs -/

/-- Two readings of one event: a packet is read from two buffers that begin with the same whole
datagram, of as many bytes as were received. -/
inductive SameRead : PeerEvent → PeerEvent → Prop
  | packet {received : Int} {src : Addr} {p p' : Incoming} {clk : Clock}
      (hsame : SameBytes received.toNat p p') (hwhole : Whole received.toNat p) :
      SameRead (.packet src p clk) (.packet src p' clk)
  | line (outf : String) (parsed : Option (List (Int × Hash))) :
      SameRead (.line outf parsed) (.line outf parsed)
  | send (pass : Nat → Pass) : SameRead (.send pass) (.send pass)
  | clean (now : Time) : SameRead (.clean now) (.clean now)
  | crash (clk : Clock) : SameRead (.crash clk) (.crash clk)
  | finish : SameRead .finish .finish

theorem SameRead.step {ev ev' : PeerEvent} (h : SameRead ev ev') :
    (peerMachine env).step ev s = (peerMachine env).step ev' s := by
  cases h with
  | packet hsame hwhole => exact inbound_same hsame hwhole
  | _ => rfl

theorem run_same {es es' : List PeerEvent} (h : List.Forall₂ SameRead es es') :
    (peerMachine env).run es s = (peerMachine env).run es' s := by
  induction h generalizing s with
  | nil => rfl
  | cons hread _ ih =>
    rw [Machine.run, Machine.run, hread.step]
    cases (peerMachine env).step _ s with
    | error f => rfl
    | ok r => simp only [ih]

end Bittorrent
