import Bittorrent.Model.Download

/-!
# Messages on the wire

What a peer builds with `make_packet` and sends with `send_packet` is read back by the field accesses
of the receiving peer, whatever its buffer held before: the seven header fields, the payload
(`wire_round_trip`), and the hashes of a WHOHAS or IHAVE packet, by its count byte and by its length.

The proof follows a byte. `make_packet` writes the header and the payload behind each other
(`makePacket_header`, `makePacket_payload`), `send_packet` takes as many bytes as the length field says
(`datagram_eq`), and the receive writes them to the front of the buffer (`receiveInto_buf`). So a field that
lies inside the datagram is the field that was written, and each accessor is one lemma `receive_...`. For
the hashes the payload is cut again at multiples of 20; `packet_contain_chunk` and `update_chunks` find
their number in two places, the count byte and the length, which for a packet of `make_packet` agree.
`wire_round_trip` collects the lemmas by the type of the message.
-/

namespace Bittorrent

variable {bytes : List UInt8} {seq n : Nat}

/-! ## Byte order -/

theorem ntohs_eq {m : Memory} {off : Nat} (h0 : m off = UInt8.ofNat (n / 2 ^ 8))
    (h1 : m (off + 1) = UInt8.ofNat n) : ntohs m off = n % 2 ^ 16 := by
  rw [ntohs, h0, h1, UInt8.toNat_ofNat', UInt8.toNat_ofNat']
  omega

theorem ntohl_eq {m : Memory} {off : Nat} (h0 : ntohs m off = n / 2 ^ 16 % 2 ^ 16)
    (h1 : ntohs m (off + 2) = n % 2 ^ 16) : ntohl m off = n % 2 ^ 32 := by
  rw [ntohl, h0, h1]
  omega

/-! ## The header of a message -/

namespace Message

def packetType : Message → Nat
  | .whohas _ => PacketType.whohas
  | .ihave _ => PacketType.ihave
  | .get _ => PacketType.get
  | .data _ _ => PacketType.data
  | .ack _ => PacketType.ack

def packetLength : Message → Nat
  | .whohas hashes => hashPacketLength hashes.length
  | .ihave hashes => hashPacketLength hashes.length
  | .get _ => sha1HashSize + Bittorrent.headerLength
  | .data _ bytes => bytes.length + Bittorrent.headerLength
  | .ack _ => Bittorrent.headerLength

def seqNumber : Message → Nat
  | .data seq _ => seq
  | _ => 0

def ackNumber : Message → Nat
  | .ack n => n
  | _ => 0

end Message

theorem makePacket_header (m : Message) :
    (makePacket m).header = fillHeader m.packetType m.packetLength m.seqNumber m.ackNumber := by
  cases m <;> rfl

theorem headerLength_le (m : Message) : headerLength ≤ m.packetLength := by
  cases m <;> simp only [Message.packetLength, hashPacketLength] <;> omega

theorem datagram_eq (m : Message) (h : m.packetLength < 2 ^ 16) :
    m.datagram = ((makePacket m).header ++ (makePacket m).payload).take m.packetLength := by
  have hlen : ntohs (fun k => (makePacket m).header.getD k 0) 6 = m.packetLength % 2 ^ 16 := by
    rw [makePacket_header]
    exact ntohs_eq rfl rfl
  rw [Message.datagram, sendPacket, hlen, Nat.mod_eq_of_lt h]

theorem receiveInto_buf (stale : Memory) (datagram : List UInt8) (k : Nat) :
    (receiveInto stale datagram).buf k = datagram[k]?.getD (stale k) :=
  List.getD_eq_getElem?_getD

theorem receive_header (m : Message) (stale : Memory) (h : m.packetLength < 2 ^ 16) {k : Nat}
    (hk : k < headerLength) : (receiveInto stale m.datagram).buf k =
      (fillHeader m.packetType m.packetLength m.seqNumber m.ackNumber).getD k 0 := by
  have hle := headerLength_le m
  have hlen : k < (fillHeader m.packetType m.packetLength m.seqNumber m.ackNumber).length := hk
  rw [receiveInto_buf, datagram_eq m h, makePacket_header, List.getElem?_take_of_lt (by omega),
    List.getElem?_append_left hlen,
    List.getD_eq_getElem?_getD, List.getElem?_eq_getElem hlen]
  rfl

section Fields

variable (m : Message) (stale : Memory) (h : m.packetLength < 2 ^ 16)

include h

theorem receive_ntohs {n off : Nat} (hoff : off + 1 < headerLength)
    (h0 : (fillHeader m.packetType m.packetLength m.seqNumber m.ackNumber).getD off 0 =
      UInt8.ofNat (n / 2 ^ 8))
    (h1 : (fillHeader m.packetType m.packetLength m.seqNumber m.ackNumber).getD (off + 1) 0 =
      UInt8.ofNat n) : ntohs (receiveInto stale m.datagram).buf off = n % 2 ^ 16 := by
  refine ntohs_eq ?_ ?_
  · rw [receive_header m stale h (by omega), h0]
  · rw [receive_header m stale h hoff, h1]

theorem receive_headerLength : (receiveInto stale m.datagram).headerLength = headerLength := by
  have hfield : ntohs (receiveInto stale m.datagram).buf 4 = headerLength % 2 ^ 16 :=
    receive_ntohs m stale h (by decide) rfl rfl
  exact hfield

theorem receive_packetLength : (receiveInto stale m.datagram).packetLength = m.packetLength := by
  have hfield : ntohs (receiveInto stale m.datagram).buf 6 = m.packetLength % 2 ^ 16 :=
    receive_ntohs m stale h (by decide) rfl rfl
  rwa [Nat.mod_eq_of_lt h] at hfield

theorem receive_seqNumber :
    (receiveInto stale m.datagram).seqNumber = m.seqNumber % 2 ^ 32 := by
  refine ntohl_eq ?_ ?_
  · exact receive_ntohs m stale h (by decide) rfl rfl
  · exact receive_ntohs m stale h (by decide) rfl rfl

theorem receive_ackNumber :
    (receiveInto stale m.datagram).ackNumber = m.ackNumber % 2 ^ 32 := by
  refine ntohl_eq ?_ ?_
  · exact receive_ntohs m stale h (by decide) rfl rfl
  · exact receive_ntohs m stale h (by decide) rfl rfl

theorem receive_packetType : (receiveInto stale m.datagram).packetType = m.packetType := by
  rw [Incoming.packetType, receive_header m stale h (by decide)]
  cases m <;> rfl

theorem receive_valid : validatePacket (receiveInto stale m.datagram).magicNumber
    (receiveInto stale m.datagram).versionNumber
    (receiveInto stale m.datagram).packetType = true := by
  have hmagic : (receiveInto stale m.datagram).magicNumber = magicNumber :=
    show ntohs (receiveInto stale m.datagram).buf 0 = magicNumber % 2 ^ 16 from
      receive_ntohs m stale h (by decide) rfl rfl
  have hversion : (receiveInto stale m.datagram).versionNumber = versionNumber := by
    rw [Incoming.versionNumber, receive_header m stale h (by decide)]
    rfl
  rw [hmagic, hversion, receive_packetType m stale h]
  cases m <;> rfl

end Fields

/-! ## The payload -/

/-- What `make_packet` copies to the payload. -/
def Message.payload : Message → List UInt8
  | .whohas hashes => UInt8.ofNat hashes.length :: [0, 0, 0] ++ (hashes.map (·.val)).flatten
  | .ihave hashes => UInt8.ofNat hashes.length :: [0, 0, 0] ++ (hashes.map (·.val)).flatten
  | .get hash => hash.val
  | .data _ bytes => bytes
  | .ack _ => []

theorem makePacket_payload (m : Message) : (makePacket m).payload = payloadOf m.payload := by
  cases m <;> rfl

theorem flatten_hashes_length (hashes : List Hash) :
    (hashes.map (·.val)).flatten.length = sha1HashSize * hashes.length := by
  induction hashes with
  | nil => rfl
  | cons h hashes ih =>
    rw [List.map_cons, List.flatten_cons, List.length_append, ih, h.property, List.length_cons,
      Nat.mul_succ, Nat.add_comm]

theorem payload_length (m : Message) : m.packetLength = headerLength + m.payload.length := by
  cases m with
  | whohas hashes =>
    simp only [Message.packetLength, Message.payload, hashPacketLength, chunkNumberAndPaddingSize,
      List.length_append, List.length_cons, List.length_nil, flatten_hashes_length, sha1HashSize]
    omega
  | ihave hashes =>
    simp only [Message.packetLength, Message.payload, hashPacketLength, chunkNumberAndPaddingSize,
      List.length_append, List.length_cons, List.length_nil, flatten_hashes_length, sha1HashSize]
    omega
  | get hash =>
    rw [Message.packetLength, Message.payload, hash.property, Nat.add_comm]
  | data seq bytes => exact Nat.add_comm _ _
  | ack n => rfl

theorem packetLength_le {m : Message} (h : m.payload.length ≤ maxPayloadSize) :
    m.packetLength ≤ 1500 := by
  rw [payload_length]
  simp only [headerLength, maxPayloadSize] at h ⊢
  omega

theorem datagram_length {m : Message} (h : m.payload.length ≤ maxPayloadSize) :
    m.datagram.length = m.packetLength := by
  have hle := packetLength_le h
  have hheader : (makePacket m).header.length = headerLength := by
    rw [makePacket_header]
    rfl
  rw [datagram_eq m (by omega), List.length_take_of_le]
  rw [List.length_append, hheader, makePacket_payload, payloadOf, List.length_append,
    List.length_replicate]
  simp only [headerLength, maxPayloadSize] at h ⊢
  omega

theorem receive_payload_byte (m : Message) (stale : Memory) (h : m.packetLength < 2 ^ 16) {k : Nat}
    (hk : headerLength + k < m.packetLength) :
    (receiveInto stale m.datagram).buf (headerLength + k) =
      (makePacket m).payload[k]?.getD (stale (headerLength + k)) := by
  have hheader : (makePacket m).header.length = headerLength := by
    rw [makePacket_header]
    rfl
  rw [receiveInto_buf, datagram_eq m h, List.getElem?_take_of_lt hk,
    List.getElem?_append_right (by omega), hheader, Nat.add_sub_cancel_left]

theorem receive_body {m : Message} (stale : Memory) (h : m.payload.length ≤ maxPayloadSize) :
    readBytes (receiveInto stale m.datagram).buf headerLength m.payload.length = m.payload := by
  have hlen := packetLength_le h
  apply List.ext_getElem (readBytes_length ..)
  intro k hk hk'
  have hbody : (makePacket m).payload[k]? = some m.payload[k] := by
    rw [makePacket_payload, payloadOf, List.getElem?_append_left hk', List.getElem?_eq_getElem hk']
  simp only [readBytes, List.getElem_map, List.getElem_range]
  rw [receive_payload_byte m stale (by omega) (by rw [payload_length]; omega), hbody]
  rfl

theorem receive_payloadSize (stale : Memory) (h : bytes.length ≤ maxPayloadSize) :
    (receiveInto stale (Message.data seq bytes).datagram).payloadSize = bytes.length := by
  have hlen := packetLength_le (m := .data seq bytes) h
  rw [Incoming.payloadSize, receive_packetLength _ stale (by omega),
    receive_headerLength _ stale (by omega), Message.packetLength, Nat.add_sub_cancel,
    Nat.min_eq_left h]

theorem receive_payload (stale : Memory) (h : bytes.length ≤ maxPayloadSize) :
    readBytes (receiveInto stale (Message.data seq bytes).datagram).buf headerLength bytes.length =
      bytes := receive_body (m := .data seq bytes) stale h

/-! ## The hashes of a WHOHAS or IHAVE packet -/

variable {hashes : List Hash} {m : Message}

/-- A message that carries the hashes behind a count byte. -/
def Message.Lists (m : Message) (hashes : List Hash) : Prop := m = .whohas hashes ∨ m = .ihave hashes

theorem getElem?_flatten_hashes (hashes : List Hash) {i k : Nat} (hk : k < sha1HashSize) :
    (hashes.map (·.val)).flatten[sha1HashSize * i + k]? = hashes[i]?.bind (·.val[k]?) := by
  induction hashes generalizing i with
  | nil => simp
  | cons h hashes ih =>
    rw [List.map_cons, List.flatten_cons]
    have hlen := h.property
    cases i with
    | zero =>
      rw [Nat.mul_zero, Nat.zero_add, List.getElem?_append_left (by omega)]
      rfl
    | succ i =>
      rw [List.getElem?_append_right (by rw [hlen, Nat.mul_succ]; omega), List.getElem?_cons_succ,
        ← ih, hlen]
      congr 1
      rw [Nat.mul_succ]
      omega

section Hashes

variable (stale : Memory) (hm : m.Lists hashes) (h : hashes.length ≤ chunkPerPacket)

include hm

theorem Message.Lists.packetLength : m.packetLength = hashPacketLength hashes.length := by
  rcases hm with rfl | rfl <;> rfl

theorem Message.Lists.payload : (makePacket m).payload = hashPayload hashes := by
  rcases hm with rfl | rfl <;> rfl

include h

theorem Message.Lists.packetLength_lt : m.packetLength < 2 ^ 16 := by
  rw [hm.packetLength]
  simp only [hashPacketLength, sha1HashSize, headerLength, chunkNumberAndPaddingSize,
    chunkPerPacket] at h ⊢
  omega

theorem receive_chunkCount : (receiveInto stale m.datagram).chunkCount = hashes.length := by
  have hbyte := receive_payload_byte m stale (hm.packetLength_lt h) (k := 0) (by
    rw [hm.packetLength]
    simp only [hashPacketLength, headerLength, chunkNumberAndPaddingSize]
    omega)
  rw [hm.payload] at hbyte
  rw [Incoming.chunkCount, show (16 : Nat) = headerLength + 0 from rfl, hbyte]
  change (UInt8.ofNat hashes.length).toNat = hashes.length
  rw [UInt8.toNat_ofNat']
  simp only [chunkPerPacket] at h
  omega

theorem receive_hashAt {i : Nat} (hi : i < hashes.length) :
    (receiveInto stale m.datagram).hashAt i = hashes[i] := by
  apply Subtype.ext
  apply List.ext_getElem ((readBytes_length ..).trans hashes[i].property.symm)
  intro k hk hk'
  have hk20 : k < sha1HashSize := hashes[i].property ▸ hk'
  have hoffset : 20 + 20 * i + k = headerLength + (4 + (20 * i + k)) := by
    simp only [headerLength]
    omega
  have hbyte := receive_payload_byte m stale (hm.packetLength_lt h) (k := 4 + (20 * i + k)) (by
    rw [hm.packetLength]
    simp only [hashPacketLength, headerLength, chunkNumberAndPaddingSize, sha1HashSize] at hk20 ⊢
    omega)
  have hflat : (hashPayload hashes)[4 + (20 * i + k)]? = some (hashes[i].val[k]) := by
    have hget := getElem?_flatten_hashes hashes (i := i) hk20
    rw [List.getElem?_eq_getElem hi, Option.bind_some, List.getElem?_eq_getElem hk'] at hget
    obtain ⟨hlt, -⟩ := List.getElem?_eq_some_iff.mp hget
    rw [hashPayload, payloadOf, List.getElem?_append_left (by
      simp only [List.length_append, List.length_cons, List.length_nil, sha1HashSize] at hlt ⊢
      omega)]
    exact (List.getElem?_append_right (Nat.le_add_right 4 _)).trans
      ((congrArg _ (Nat.add_sub_cancel_left ..)).trans hget)
  simp only [readBytes, List.getElem_map, List.getElem_range]
  rw [hoffset, hbyte, hm.payload, hflat]
  rfl

theorem receive_packetContainChunk (hash : Hash) :
    packetContainChunk (receiveInto stale m.datagram) hash = true ↔ hash ∈ hashes := by
  rw [packetContainChunk, List.any_eq_true, receive_chunkCount stale hm h]
  simp only [List.mem_range, decide_eq_true_eq]
  constructor
  · rintro ⟨i, hi, rfl⟩
    rw [receive_hashAt stale hm h hi]
    exact List.getElem_mem hi
  · intro hmem
    obtain ⟨i, hi, rfl⟩ := List.mem_iff_getElem.mp hmem
    exact ⟨i, hi, (receive_hashAt stale hm h hi).symm⟩

theorem receive_hashes : (List.range hashes.length).map (receiveInto stale m.datagram).hashAt =
    hashes := by
  apply List.ext_getElem (by simp)
  intro i hi hi'
  rw [List.getElem_map, List.getElem_range, receive_hashAt stale hm h hi']

theorem receive_updateChunks : updateChunks (receiveInto stale m.datagram) = hashes := by
  have hcount : (hashPacketLength hashes.length - 20) / 20 = hashes.length := by
    simp only [hashPacketLength, sha1HashSize, headerLength, chunkNumberAndPaddingSize]
    omega
  rw [updateChunks, receive_packetLength m stale (hm.packetLength_lt h), hm.packetLength, hcount,
    receive_hashes stale hm h]

end Hashes

/-! ## The round trip -/

/-- What `make_packet` can be given: 32-bit numbers, at most 1484 bytes, one to 74 hashes. -/
def Message.InRange : Message → Prop
  | .whohas hashes => 1 ≤ hashes.length ∧ hashes.length ≤ chunkPerPacket
  | .ihave hashes => 1 ≤ hashes.length ∧ hashes.length ≤ chunkPerPacket
  | .get _ => True
  | .data seq bytes => seq < 2 ^ 32 ∧ bytes.length ≤ maxPayloadSize
  | .ack n => n < 2 ^ 32

theorem Message.InRange.payload {m : Message} (h : m.InRange) : m.payload.length ≤ maxPayloadSize := by
  have hhashes : ∀ hashes : List Hash, hashes.length ≤ chunkPerPacket →
      (UInt8.ofNat hashes.length :: [0, 0, 0] ++ (hashes.map (·.val)).flatten).length ≤
        maxPayloadSize := by
    intro hashes hle
    simp only [List.length_append, List.length_cons, List.length_nil, flatten_hashes_length,
      sha1HashSize, chunkPerPacket, maxPayloadSize] at hle ⊢
    omega
  cases m with
  | whohas hashes => exact hhashes hashes h.2
  | ihave hashes => exact hhashes hashes h.2
  | get hash =>
    rw [Message.payload, hash.property]
    decide
  | data seq bytes => exact h.2
  | ack n => exact Nat.zero_le _

theorem Message.InRange.numbers {m : Message} (h : m.InRange) :
    m.seqNumber < 2 ^ 32 ∧ m.ackNumber < 2 ^ 32 := by
  have hzero : 0 < 2 ^ 32 := by decide
  cases m with
  | data seq bytes => exact ⟨h.1, hzero⟩
  | ack n => exact ⟨hzero, h⟩
  | _ => exact ⟨hzero, hzero⟩

/-- The received packet says what the message says. -/
structure Reads (m : Message) (packet : Incoming) : Prop where
  valid : validatePacket packet.magicNumber packet.versionNumber packet.packetType = true
  packetType : packet.packetType = m.packetType
  seqNumber : packet.seqNumber = m.seqNumber
  ackNumber : packet.ackNumber = m.ackNumber
  headerLength : packet.headerLength = 16
  packetLength : packet.packetLength = m.datagram.length
  fits : m.datagram.length ≤ 1500
  payload : readBytes packet.buf packet.headerLength (packet.packetLength - packet.headerLength) =
    m.payload
  hash : ∀ hash, m = .get hash → readHash packet.buf packet.headerLength = hash

/-- Every message is received as it was built, over whatever the buffer held before. -/
theorem wire_round_trip (m : Message) (h : m.InRange) (stale : Memory) :
    Reads m (receiveInto stale m.datagram) := by
  have hpayload := h.payload
  obtain ⟨hseq, hack⟩ := h.numbers
  have hle := packetLength_le hpayload
  have hlt : m.packetLength < 2 ^ 16 := by omega
  have hheader := receive_headerLength m stale hlt
  have hlength := receive_packetLength m stale hlt
  have hbody := receive_body stale hpayload
  refine ⟨receive_valid m stale hlt, receive_packetType m stale hlt, ?_, ?_, hheader, ?_, ?_, ?_, ?_⟩
  · rw [receive_seqNumber m stale hlt, Nat.mod_eq_of_lt hseq]
  · rw [receive_ackNumber m stale hlt, Nat.mod_eq_of_lt hack]
  · rw [hlength, datagram_length hpayload]
  · rwa [datagram_length hpayload]
  · rwa [hheader, hlength, payload_length, Nat.add_sub_cancel_left]
  · rintro hash rfl
    rw [hheader]
    exact Subtype.ext ((congrArg _ hash.property.symm).trans hbody)

/-- A DATA packet of three bytes. -/
theorem wire_round_trip_data :
    Reads (.data 7 [1, 2, 3]) (samplePacket (.data 7 [1, 2, 3])) :=
  wire_round_trip (.data 7 [1, 2, 3]) ⟨by decide, by decide⟩ _

end Bittorrent
