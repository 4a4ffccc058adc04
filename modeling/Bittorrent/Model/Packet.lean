import Bittorrent.Model.Common

/-!
# Packets (`network.c`)

The field reads of a received buffer, `fill_header`, the five cases of `make_packet`, and the
flattening of `send_packet`. The two loops whose counters are too narrow for their bound
(`print_incoming_packet` and the counting loop of WHOHAS) are run with as much fuel as their counter
has values: a loop that uses it up never ends. Other loops are list functions; `packet_contain_chunk`
is written as its loop too.
-/

namespace Bittorrent

/-! ## Packet types -/

namespace PacketType

def whohas : Nat := 0
def ihave : Nat := 1
def get : Nat := 2
def data : Nat := 3
def ack : Nat := 4
def denied : Nat := 5

end PacketType

/-! ## Received packets -/

/-- `struct packet* incoming_packet = (struct packet*)buf`: whatever lies from `buf` on. -/
structure Incoming where
  buf : Memory

namespace Incoming

variable (packet : Incoming)

def magicNumber : Nat := ntohs packet.buf 0
def versionNumber : Nat := (packet.buf 2).toNat
def packetType : Nat := (packet.buf 3).toNat
def headerLength : Nat := ntohs packet.buf 4
def packetLength : Nat := ntohs packet.buf 6
def seqNumber : Nat := ntohl packet.buf 8
def ackNumber : Nat := ntohl packet.buf 12
def chunkCount : Nat := (packet.buf 16).toNat

/-- `unsigned data_length = in_packet_length - header_length`. -/
def dataLength : Nat := toUnsigned (packet.packetLength - packet.headerLength)

/-- The `i`-th 20-byte slot after the chunk count and its padding. -/
def hashAt (i : Nat) : Hash := readHash packet.buf (20 + 20 * i)

end Incoming

/-- `validate_packet`. -/
def validatePacket (magic version packetType : Nat) : Bool :=
  magic = magicNumber ∧ version = versionNumber ∧ packetType ≤ 5

/-- The buffer after a datagram was received over the `stale` bytes in it. -/
def receiveInto (stale : Memory) (datagram : List UInt8) : Incoming :=
  ⟨fun k => datagram.getD k (stale k)⟩

/-- The loop of `print_incoming_packet`, with its `unsigned short i`. -/
def printLoop (packetLength : Nat) : Nat → Nat → Except Fault Unit
  | 0, _ => .error .diverge
  | fuel + 1, i =>
    if i < packetLength then printLoop packetLength fuel ((i + 20) % 2 ^ 16) else .ok ()

/-- `print_incoming_packet`: it prints hashes unless the packet is a DATA packet. -/
def printIncomingPacket (packet : Incoming) : Except Fault Unit :=
  if packet.packetType = PacketType.data then .ok () else printLoop packet.packetLength (2 ^ 16 + 1) 20

/-- `packet_contain_chunk`: the count byte says how many slots are compared. -/
def packetContainChunk (packet : Incoming) (hash : Hash) : Bool :=
  (List.range packet.chunkCount).any fun i => hash = packet.hashAt i

/-- The loop of `packet_contain_chunk`, with its `unsigned char i`. -/
def packetContainLoop (packet : Incoming) (hash : Hash) : Nat → Nat → Except Fault Bool
  | 0, _ => .error .diverge
  | fuel + 1, i =>
    if i < packet.chunkCount then
      if hash = packet.hashAt i then .ok true else packetContainLoop packet hash fuel ((i + 1) % 2 ^ 8)
    else .ok false

/-! ## Built packets -/

def htons (n : Nat) : List UInt8 := [UInt8.ofNat (n / 2 ^ 8), UInt8.ofNat n]

def htonl (n : Nat) : List UInt8 := htons (n / 2 ^ 16) ++ htons n

/-- `fill_header`. -/
def fillHeader (packetType packetLength seqNumber ackNumber : Nat) : List UInt8 :=
  htons magicNumber ++ [UInt8.ofNat versionNumber, UInt8.ofNat packetType] ++ htons headerLength ++
    htons packetLength ++ htonl seqNumber ++ htonl ackNumber

/-- `struct packet`: 16 header bytes and a payload of `MAX_PAYLOAD_SIZE` bytes. -/
structure Packet where
  header : List UInt8
  payload : List UInt8

/-- A zeroed payload with some bytes copied to its start. -/
def payloadOf (bytes : List UInt8) : List UInt8 :=
  bytes ++ List.replicate (maxPayloadSize - bytes.length) 0

/-- The count byte, its padding and the hashes of a WHOHAS or IHAVE packet. -/
def hashPayload (hashes : List Hash) : List UInt8 :=
  payloadOf (UInt8.ofNat hashes.length :: [0, 0, 0] ++ (hashes.map (·.val)).flatten)

/-- What a packet says, one constructor for each case of `make_packet`. -/
inductive Message
  | whohas (hashes : List Hash)
  | ihave (hashes : List Hash)
  | get (hash : Hash)
  | data (seqNumber : Nat) (bytes : List UInt8)
  | ack (ackNumber : Nat)

def hashPacketLength (count : Nat) : Nat :=
  count * sha1HashSize + headerLength + chunkNumberAndPaddingSize

/-- `make_packet`. -/
def makePacket : Message → Packet
  | .whohas hashes =>
    ⟨fillHeader PacketType.whohas (hashPacketLength hashes.length) 0 0, hashPayload hashes⟩
  | .ihave hashes =>
    ⟨fillHeader PacketType.ihave (hashPacketLength hashes.length) 0 0, hashPayload hashes⟩
  | .get hash => ⟨fillHeader PacketType.get (sha1HashSize + headerLength) 0 0, payloadOf hash.val⟩
  | .data seqNumber bytes =>
    ⟨fillHeader PacketType.data (bytes.length + headerLength) seqNumber 0, payloadOf bytes⟩
  | .ack ackNumber => ⟨fillHeader PacketType.ack headerLength 0 ackNumber, payloadOf []⟩

/-- `send_packet`: the first `packet_length` bytes of the flattened packet. -/
def sendPacket (packet : Packet) : List UInt8 :=
  let buffer := packet.header ++ packet.payload
  buffer.take (ntohs (fun k => packet.header.getD k 0) 6)

/-- `print_packet`: like `print_incoming_packet`, over the payload. -/
def printPacket (packet : Packet) : Except Fault Unit :=
  let header : Memory := fun k => packet.header.getD k 0
  if (header 3).toNat = PacketType.data then .ok ()
  else printLoop (ntohs header 6 - ntohs header 4) (2 ^ 16 + 1) 4

/-- The datagram a message travels in. -/
def Message.datagram (m : Message) : List UInt8 := sendPacket (makePacket m)

/-- A message received over a zeroed buffer, for runs on fixed inputs. -/
def samplePacket (m : Message) : Incoming := receiveInto (fun _ => 0) m.datagram

/-- The address of the peer that `sampleEnv` knows. -/
def sampleSrc : Addr := ⟨0, 1⟩

/-! ## WHOHAS and IHAVE -/

/-- The counting loop of `make_packet(WHOHAS, ...)`, with its `unsigned char i`. -/
def countUnfinished (chunks : List Chunk) : Nat → Nat → Nat → Except Fault Nat
  | 0, _, _ => .error .diverge
  | fuel + 1, i, count =>
    match chunks[i]? with
    | none => .ok count
    | some chunk =>
      countUnfinished chunks fuel ((i + 1) % 2 ^ 8)
        (if chunk.state = .notStarted then count + 1 else count)

/-- The filling loop for one packet: the hashes of the next `count` unfinished chunks, and the
chunks after them. -/
def nextUnfinished : Nat → List Chunk → List Hash × List Chunk
  | 0, chunks => ([], chunks)
  | _ + 1, [] => ([], [])
  | count + 1, chunk :: chunks =>
    if chunk.state = .notStarted then
      let (hashes, rest) := nextUnfinished count chunks
      (chunk.hash :: hashes, rest)
    else nextUnfinished (count + 1) chunks

/-- The packets of `make_packet(WHOHAS, ...)`: `left` unfinished chunks, 74 to a packet. -/
def fillWhohas : Nat → Nat → List Chunk → List Message
  | 0, _, _ => []
  | packets + 1, left, chunks =>
    let count := if packets = 0 then left else chunkPerPacket
    let (hashes, rest) := nextUnfinished count chunks
    .whohas hashes :: fillWhohas packets (left - count) rest

/-- `make_packet(WHOHAS, ...)`. -/
def makeWhohas (request : Request) : Except Fault (List Message) :=
  match countUnfinished request.chunks (2 ^ 8 + 1) 0 0 with
  | .error f => .error f
  | .ok unfinished =>
    let packetCount :=
      if unfinished % chunkPerPacket = 0 then unfinished / chunkPerPacket
      else unfinished / chunkPerPacket + 1
    .ok (fillWhohas packetCount unfinished request.chunks)

end Bittorrent
