import Bittorrent.Peer.Runs
import Bittorrent.Download.Outcomes
import Bittorrent.Upload.StaleAck

/-!
# The last packet again

A sender whose last ACK was lost sends packet 354 again. The receiver answers it with the ACK that
ends the upload exactly if it has a stream from the sender that stands at number 353 or 354, or has
no record, and room for the payload (`last_ack_recovered_iff`): the stream that the packet belongs to
is closed by then, and `process_inbound_udp` returns before it tracks the packet.

The statement is about two peers, its proof about each alone (`pair_reach`).

* The sender. An active upload was never told 354, since with that ACK it is ended (`notEnded_reach`). So
  the ACK is no duplicate: it pops the packet and ends the upload, unless `infer_RTT` exits on the round
  trip (`ack_ends_iff`).
* The receiver. With at most one record the tracker answers 354 exactly if it stands at 353, when the packet
  is the next one, or at 354, when it is the newest again; a slot without a record answers with what it is
  given (`data_acks_last_iff`). The packet is then saved, which needs room for it.

`lost_ack_unanswered` runs a whole chunk to the point where the receiver has closed its stream, and sends
the packet once more.
-/

namespace Bittorrent

variable {env : Env} {a b : Peer} {u u' : Uploads} {d d' : Downloads} {up : UploadLog}
  {down l : DownloadLog} {p : Int} {i : Nat} {k : Link} {src : Addr}

/-! ## The sender: an active upload has not been told 354 -/

/-- The peer of a slot and the last number acknowledged to it. -/
def UploadSlot.told (slot : UploadSlot) : Int × Nat := (slot.uploadId, slot.lastAck)

theorem stamp_told (now : Time) (slot : UploadSlot) : (slot.stamp now).told = slot.told := by
  unfold UploadSlot.stamp
  split <;> rfl

theorem sendLoop_told (pass : Nat → Pass) (pairs : List (Int × Int)) (u : Uploads) :
    (sendLoop env pass pairs u).1.slots.map UploadSlot.told = u.slots.map UploadSlot.told :=
  sendLoop_frame (sendPass_frame (fun slot now => stamp_told now slot) (fun _ _ => rfl) fun _ _ _ => rfl)
    pass pairs u

/-- No active upload was told 354: with that ACK it is ended. -/
def NotEnded (u : Uploads) : Prop :=
  ∀ slot ∈ u.slots, slot.uploadId ≠ idNull → slot.lastAck ≠ maxPacketPerChunk

theorem NotEnded.congr (h : NotEnded u)
    (htold : u'.slots.map UploadSlot.told = u.slots.map UploadSlot.told) : NotEnded u' := by
  intro slot hmem
  have htold' : slot.told ∈ u.slots.map UploadSlot.told := htold ▸ List.mem_map_of_mem hmem
  obtain ⟨slot₀, hmem₀, heq⟩ := List.mem_map.mp htold'
  obtain ⟨hid, hlast⟩ := Prod.mk.inj heq
  rw [← hid, ← hlast]
  exact h slot₀ hmem₀

theorem NotEnded.set {slot : UploadSlot} (h : NotEnded u) (hslots : u'.slots = u.slots.set i slot)
    (hslot : slot.uploadId ≠ idNull → slot.lastAck ≠ maxPacketPerChunk) : NotEnded u' := by
  intro s hmem
  rw [hslots] at hmem
  rcases List.mem_or_eq_of_mem_set hmem with hmem | rfl
  · exact h s hmem
  · exact hslot

theorem NotEnded.abort (h : NotEnded u) (p : Int) : NotEnded (abortUpload p u).1 := by
  cases hl : getUploadIndexById p u with
  | none => rwa [abortUpload, change_none hl]
  | some r =>
    rw [abortUpload, change_eq hl]
    exact h.set rfl fun hactive => absurd rfl hactive

theorem NotEnded.inboundGet (h : NotEnded u) (p c : Int) (clk : Clock) :
    NotEnded (inboundGet p c clk u).1 := by
  cases hl : getUploadIndexById idNull u with
  | none => rwa [inboundGet_none hl]
  | some r =>
    obtain ⟨index, slot⟩ := r
    have hstarted : NotEnded (u.write index (slot.start p c (clk 0))) :=
      h.set rfl fun _ => (by decide : (0 : Nat) ≠ maxPacketPerChunk)
    obtain ⟨j, slot', hp, hget⟩ := inboundGet_found hl p c clk
    rw [hget]
    exact hstarted.congr (Table.map_set_key (getUploadIndexById_get hp) rfl)

theorem NotEnded.step {ev : UploadEvent} (h : NotEnded u)
    (hs : (uploadMachine env).step ev u = .ok (u', up)) : NotEnded u' := by
  cases ev with
  | get p c clk =>
    have hr := h.inboundGet p c clk
    rwa [Except.ok.inj hs] at hr
  | ack p n clk =>
    cases hl : getUploadIndexById p u with
    | none =>
      obtain ⟨rfl, -⟩ := Prod.mk.inj (Except.ok.inj ((inboundAck_none hl n clk).symm.trans hs))
      exact h
    | some r =>
      obtain ⟨slot', acts, -, hlast, hslots⟩ := inboundAck_slots hl hs
      refine h.set hslots ?_
      split_ifs with hn
      · exact fun hactive => absurd rfl hactive
      · exact fun _ => hlast ▸ hn
  | send clk =>
    obtain ⟨rfl, -⟩ := Prod.mk.inj (Except.ok.inj hs)
    exact h.congr (sendLoop_told clk _ u)
  | clean now =>
    obtain ⟨rfl, -⟩ := Prod.mk.inj (Except.ok.inj hs)
    split
    · exact h
    · exact h.abort _
  | abort p =>
    obtain ⟨rfl, -⟩ := Prod.mk.inj (Except.ok.inj hs)
    exact h.abort p

theorem notEnded_reach {max : Nat} {unset : Nat → UnsetSlot}
    (h : (uploadMachine env).Reach (· = initUploads max unset) Machine.Any u up) : NotEnded u := by
  refine h.invariant (I := fun u _ => NotEnded u) (fun u hu slot hmem hactive => ?_)
    fun u log ev u' l _ hI _ hs => hI.step hs
  rw [hu] at hmem
  obtain ⟨_, _, rfl⟩ := List.mem_map.mp hmem
  exact absurd rfl hactive

/-- `infer_RTT` does not exit on the round trip of packet 354. -/
def LastSample (net : NetworkParams) (now : Time) (slot : UploadSlot) : Prop :=
  ∀ head ∈ slot.sentQueueHead, head.seq = maxPacketPerChunk → Inferable net now head.timestamp

theorem ack_ends_iff {max : Nat} {unset : Nat → UnsetSlot} {slot : UploadSlot} {n : Nat} (clk : Clock)
    (h : (uploadMachine env).Reach (· = initUploads max unset) Machine.Any u up)
    (hfound : getUploadIndexById p u = some (i, slot)) (hwaits : maxPacketPerChunk ∈ slot.seqs) :
    (∃ u' l slot', inboundAck env p n clk u = .ok (u', l) ∧ u'.slots[i]? = some slot' ∧
      slot'.uploadId = idNull ∧ maxPacketPerChunk ∉ slot'.seqs) ↔
        n = maxPacketPerChunk ∧ LastSample u.net (clk 0) slot := by
  have hget := getUploadIndexById_get hfound
  have hqueue := (queueInv_reach h).1 i slot hget
  have hactive : slot.uploadId ≠ idNull := by
    rcases hqueue with ⟨-, hnil, -⟩ | ⟨hactive, -⟩
    · rw [UploadSlot.seqs, hnil] at hwaits
      cases hwaits
    · exact hactive
  constructor
  · rintro ⟨u', l, slot', hs, hslot', hfree, -⟩
    have hn : n = maxPacketPerChunk := by
      by_contra hn
      obtain ⟨slot₁, acts, hack, -, hslots⟩ := inboundAck_slots hfound hs
      rw [hslots, Table.get_set_self (Table.lookup_lt hfound), if_neg hn] at hslot'
      cases hslot'
      exact hactive (hack.uploadId.symm.trans hfree)
    subst hn
    obtain ⟨slot₁, net, acts, htake, -⟩ := inboundAck_found hfound hs
    exact ⟨rfl, ((takeAck_ok_iff hqueue env.smoothing _ clk u.net).mp ⟨_, htake⟩).sample⟩
  · rintro ⟨rfl, hsample⟩
    have hready : AckReady u.net (clk 0) slot maxPacketPerChunk := ⟨hsample, fun hlast =>
      absurd hlast (notEnded_reach h slot (List.mem_of_getElem? hget) hactive)⟩
    obtain ⟨r, hr⟩ := (takeAck_ok_iff hqueue env.smoothing maxPacketPerChunk clk u.net).mpr hready
    have hok : ∃ u' l, inboundAck env p maxPacketPerChunk clk u = .ok (u', l) := by
      rw [inboundAck_eq hfound, hr]
      exact ⟨_, _, rfl⟩
    obtain ⟨u', l, hs⟩ := hok
    obtain ⟨slot', acts, -, -, hslots⟩ := inboundAck_slots hfound hs
    refine ⟨u', l, slot'.abort, hs, ?_, rfl, List.not_mem_nil⟩
    rw [hslots, Table.get_set_self (Table.lookup_lt hfound), if_pos rfl]

/-! ## The receiver: what a packet 354 is acknowledged with -/

/-- At most one record is kept, and its number has 32 bits. -/
def Newest (slot : DownloadSlot) : Prop :=
  slot.lastAckedRecord = [] ∨ ∃ root, slot.lastAckedRecord = [root] ∧ root.seq < 2 ^ 32

theorem newest_kept : SlotKept Newest where
  track slot seq length now hseq h := by
    rcases h with hnil | ⟨root, hroot, hlt⟩
    · exact Or.inr ⟨⟨seq, length⟩, by rw [hnil]; rfl, hseq⟩
    · obtain ⟨record, hrecord, hnumber⟩ := advanceRecords_one hroot seq length
      refine Or.inr ⟨record, hrecord, ?_⟩
      rw [hnumber, advance]
      split_ifs
      · exact hseq
      · exact hlt
  opened slot p hash now h := h
  abort slot := Or.inl rfl

theorem newest_reach {max : Nat} {has : List Chunk} {files : String → Memory}
    {Ok : Downloads → DownloadLog → DownloadEvent → Prop}
    (h : (downloadMachine env).Reach (· = initDownloads max has files) Ok d down) : Slots Newest d := by
  refine h.invariant (I := fun d _ => Slots Newest d) (fun d hd i slot hi => ?_)
    fun d log ev d' l _ hI _ hs => newest_kept.step hI hs
  rw [hd] at hi
  rw [List.eq_of_mem_replicate (List.mem_of_getElem? hi)]
  exact Or.inl rfl

/-- The stream stands at number 353 or 354, or has no record. -/
def AtLast (slot : DownloadSlot) : Prop :=
  slot.lastAckedRecord = [] ∨ ∃ root, slot.lastAckedRecord = [root] ∧
    (root.seq + 1 = maxPacketPerChunk ∨ root.seq = maxPacketPerChunk)

theorem tracked_last {index : Nat} {slot : DownloadSlot} (length : Nat) (now : Time) (h : Newest slot)
    (hfound : getDownloadIndexById p d = some (index, slot)) :
    (trackDataPacket p maxPacketPerChunk length now d).1 < 2 ^ 32 ∧
      ((trackDataPacket p maxPacketPerChunk length now d).1 = maxPacketPerChunk ↔ AtLast slot) := by
  rw [trackDataPacket_eq hfound]
  rcases h with hnil | ⟨root, hroot, hlt⟩
  · rw [hnil]
    exact ⟨(by decide : maxPacketPerChunk < 2 ^ 32), fun _ => Or.inl hnil, fun _ => rfl⟩
  · obtain ⟨record, hrecord, hnumber⟩ := advanceRecords_one hroot maxPacketPerChunk length
    have hlast : AtLast slot ↔ root.seq + 1 = maxPacketPerChunk ∨ root.seq = maxPacketPerChunk := by
      simp [AtLast, hroot]
    rw [hrecord, List.headD_cons, hnumber, hlast, advance]
    by_cases hnext : wrap32 (root.seq + 1) = maxPacketPerChunk
    · rw [if_pos hnext]
      refine ⟨(by decide : maxPacketPerChunk < 2 ^ 32), fun _ => Or.inl ?_, fun _ => rfl⟩
      simp only [wrap32, maxPacketPerChunk] at hnext ⊢
      omega
    · rw [if_neg hnext]
      refine ⟨hlt, Or.inr, fun hor => hor.resolve_left fun hsucc => hnext ?_⟩
      rw [hsucc]
      rfl

/-- The entry is OWNED, or the payload is empty, or it fits the buffer of a RECEIVING entry. -/
def HasRoom (chunk : Chunk) (size : Nat) : Prop :=
  chunk.state = .owned ∨ size = 0 ∨
    (chunk.state = .receiving ∧ chunk.receivedByteNumber + size ≤ btChunkSize)

/-- A stream of the peer stands at number 353 or 354, or has no record, and has room for the payload. -/
def StreamAtLast (d : Downloads) (p : Int) (size : Nat) : Prop :=
  ∃ index slot hash request entry chunk,
    Target d p index slot hash request entry chunk ∧ AtLast slot ∧ HasRoom chunk size

theorem target_acks_last_iff {max : Nat} {has : List Chunk} {files : String → Memory}
    (h : (downloadMachine env).Reach (· = initDownloads max has files) Machine.Any d down)
    {index entry : Nat} {slot : DownloadSlot} {hash : Hash} {request : Request} {chunk : Chunk}
    (htarget : Target d p index slot hash request entry chunk)
    {packet : Incoming} (hseq : packet.seqNumber = maxPacketPerChunk) (src : Addr) (clk : Clock) :
    (∃ d' l n, inboundData env src p packet clk d = .ok (d', l) ∧ .sent (some src) (.ack n) ∈ l ∧
      n % 2 ^ 32 = maxPacketPerChunk) ↔ AtLast slot ∧ HasRoom chunk packet.payloadSize := by
  have hb := (downloadInv_reach h).buffered request entry chunk htarget.current htarget.get
  obtain ⟨slot', htarget'⟩ := htarget.track packet.seqNumber packet.dataLength (clk 0)
  have haccept := acceptData_iff env src index p clk packet hb htarget'.current htarget'.get
  obtain ⟨hlt, hlast⟩ := tracked_last packet.dataLength (clk 0)
    (newest_reach h index slot (getDownloadIndexById_get htarget.found)) htarget.found
  have hroom : HasRoom chunk packet.payloadSize ↔ Fits down entry chunk packet := by
    refine or_congr_right (or_congr_right (and_congr_right fun hreceiving => ?_))
    rw [hb.saved hreceiving]
  rw [← hseq] at hlt hlast ⊢
  rw [inboundData_eq htarget, hroom, ← haccept, ← hlast]
  dsimp only
  by_cases heq : packet.seqNumber = (trackDataPacket p packet.seqNumber packet.dataLength (clk 0) d).1
  · rw [if_pos heq, ← heq]
    cases hsaved : acceptData env src index p packet entry chunk clk
      (trackDataPacket p packet.seqNumber packet.dataLength (clk 0) d).2 with
    | error f => simp
    | ok r =>
      obtain ⟨d₁, saved⟩ := r
      refine ⟨fun _ => ⟨rfl, _, rfl⟩, fun _ => ⟨_, _, packet.seqNumber, rfl, List.mem_cons_self, ?_⟩⟩
      exact Nat.mod_eq_of_lt (seqNumber_lt packet)
  · -- the ACK of another number
    rw [if_neg heq]
    constructor
    · rintro ⟨d', l, n, hs, hmem, hn⟩
      cases hs
      cases List.mem_singleton.mp hmem
      exact absurd (hn.symm.trans (Nat.mod_eq_of_lt hlt)) heq
    · exact fun hand => absurd hand.1.symm heq

/-- Packet 354 is answered with the ACK of 354 exactly by a stream that stands there. -/
theorem data_acks_last_iff {max : Nat} {has : List Chunk} {files : String → Memory}
    (h : (downloadMachine env).Reach (· = initDownloads max has files) Machine.Any d down)
    {packet : Incoming} (hseq : packet.seqNumber = maxPacketPerChunk) (src : Addr) (clk : Clock) :
    (∃ d' l n, inboundData env src p packet clk d = .ok (d', l) ∧ .sent (some src) (.ack n) ∈ l ∧
      n % 2 ^ 32 = maxPacketPerChunk) ↔ StreamAtLast d p packet.payloadSize := by
  constructor
  · rintro ⟨d', l, n, hs, hmem, hn⟩
    rcases inboundData_target hs with ⟨-, rfl⟩ | ⟨index, slot, hash, request, entry, chunk, htarget⟩
    · cases hmem
    · exact ⟨index, slot, hash, request, entry, chunk, htarget,
        (target_acks_last_iff h htarget hseq src clk).mp ⟨d', l, n, hs, hmem, hn⟩⟩
  · rintro ⟨index, slot, hash, request, entry, chunk, htarget, hlast⟩
    exact (target_acks_last_iff h htarget hseq src clk).mpr hlast

/-! ## Both ends -/

/-- Two peers at their start. -/
def PairStart (r : Peer × Peer) : Prop :=
  (∃ max unset has files, r.1 = initPeer max unset has files) ∧
    ∃ max unset has files, r.2 = initPeer max unset has files

/-- Each of two peers is in a state it can reach by itself. -/
theorem pair_reach {r : Peer × Peer} {log : PeerLog}
    (h : (pairMachine k).Reach PairStart Machine.Any r log) :
    (∃ max unset has files la, (peerMachine k.sender).Reach (· = initPeer max unset has files)
      Machine.Any r.1 la) ∧
    ∃ max unset has files lb, (peerMachine k.receiver).Reach (· = initPeer max unset has files)
      Machine.Any r.2 lb := by
  refine h.invariant (I := fun r _ =>
    (∃ max unset has files la, (peerMachine k.sender).Reach (· = initPeer max unset has files)
      Machine.Any r.1 la) ∧
    ∃ max unset has files lb, (peerMachine k.receiver).Reach (· = initPeer max unset has files)
      Machine.Any r.2 lb) (fun r hr => ?_) fun r log ev r' l _ hI _ hs => ?_
  · obtain ⟨⟨max, unset, has, files, ha⟩, max', unset', has', files', hb⟩ := hr
    exact ⟨⟨max, unset, has, files, [], .start ha⟩, max', unset', has', files', [], .start hb⟩
  · obtain ⟨⟨max, unset, has, files, la, ha⟩, max', unset', has', files', lb, hb⟩ := hI
    obtain ⟨a, b⟩ := r
    cases ev with
    | inl ev =>
      simp only [pairMachine] at hs
      split at hs
      · cases hs
      · rename_i hstep
        cases hs
        exact ⟨⟨max, unset, has, files, _, ha.step trivial hstep⟩,
          max', unset', has', files', lb, hb⟩
    | inr ev =>
      simp only [pairMachine] at hs
      split at hs
      · cases hs
      · rename_i hstep
        cases hs
        exact ⟨⟨max, unset, has, files, la, ha⟩,
          max', unset', has', files', _, hb.step trivial hstep⟩

/-- The receiver answers packet 354 with an ACK that ends the sender's upload in slot `i` and removes
the packet from its queue, when it is received. -/
def LastAckRecovered (k : Link) (src : Addr) (i : Nat) (bytes : List UInt8) (stale stale' : Memory)
    (clk clk' : Clock) (a b : Peer) : Prop :=
  ∃ b' l n, processInboundUdp k.receiver k.src
      (receiveInto stale (Message.data maxPacketPerChunk bytes).datagram) clk b = .ok (b', l) ∧
    .inr (.sent (some k.src) (.ack n)) ∈ l ∧
    ∃ a' l' slot', processInboundUdp k.sender src (receiveInto stale' (Message.ack n).datagram) clk' a =
        .ok (a', l') ∧
      a'.uploads.slots[i]? = some slot' ∧ slot'.uploadId = idNull ∧ maxPacketPerChunk ∉ slot'.seqs

/-- In every state that two peers can reach, with packet 354 in the queue of the one: if that packet
is received by the other it is answered with an ACK that ends the upload exactly if a stream of the
other stands at its end and the round trip can be inferred when the ACK is read. -/
theorem last_ack_recovered_iff {log : PeerLog} {slot : UploadSlot} {bytes : List UInt8}
    (hk : k.Named src) (h : (pairMachine k).Reach PairStart Machine.Any (a, b) log)
    (hfound : getUploadIndexById k.receiverId a.uploads = some (i, slot))
    (hwaits : maxPacketPerChunk ∈ slot.seqs) (hbytes : bytes.length ≤ maxPayloadSize)
    (stale stale' : Memory) (clk clk' : Clock) :
    LastAckRecovered k src i bytes stale stale' clk clk' a b ↔
      StreamAtLast b.downloads k.senderId bytes.length ∧ LastSample a.uploads.net (clk' 0) slot := by
  obtain ⟨⟨max, unset, has, files, la, ha⟩, max', unset', has', files', lb, hb⟩ := pair_reach h
  have hlen : (Message.data maxPacketPerChunk bytes).packetLength < 2 ^ 16 := by
    simp only [Message.packetLength, headerLength, maxPayloadSize] at hbytes ⊢
    omega
  have hacklen : ∀ n, (Message.ack n).packetLength < 2 ^ 16 := fun _ =>
    show headerLength < 2 ^ 16 by decide
  have hseq : (receiveInto stale (Message.data maxPacketPerChunk bytes).datagram).seqNumber =
      maxPacketPerChunk := receive_seqNumber _ stale hlen
  have hends := fun n => ack_ends_iff (n := n) clk' (uploads_reach ha) hfound hwaits
  have hsize : (receiveInto stale (Message.data maxPacketPerChunk bytes).datagram).payloadSize =
      bytes.length := receive_payloadSize stale hbytes
  rw [← hsize, ← data_acks_last_iff (downloads_reach hb).any hseq k.src clk]
  unfold LastAckRecovered
  rw [processInboundUdp_message _ _ _ _ _ _ hlen]
  dsimp only
  rw [hk.2]
  constructor
  · rintro ⟨b', l, n, hdata, hmem, a', l', slot', hack, hslot', hfree, hgone⟩
    obtain ⟨d, down, hd, -, rfl⟩ := download_ok hdata
    obtain ⟨act, hact, he⟩ := List.mem_map.mp hmem
    cases he
    rw [processInboundUdp_message _ _ _ _ _ _ (hacklen n)] at hack
    obtain ⟨u, up, hu, rfl, -⟩ := upload_ok hack
    rw [hk.1, receive_ackNumber _ stale' (hacklen n)] at hu
    obtain ⟨hn, hsample⟩ := (hends _).mp ⟨u, up, slot', hu, hslot', hfree, hgone⟩
    exact ⟨⟨d, down, n, hd, hact, hn⟩, hsample⟩
  · rintro ⟨⟨d, down, n, hd, hmem, hn⟩, hsample⟩
    obtain ⟨u, up, slot', hu, hslot', hfree, hgone⟩ := (hends _).mpr ⟨hn, hsample⟩
    refine ⟨{ b with downloads := d }, _, n, by rw [hd]; rfl, List.mem_map_of_mem hmem,
      { a with uploads := u }, up.map .inl, slot', ?_, hslot', hfree, hgone⟩
    refine processInboundUdp_ack ?_
    rw [hk.1, receive_ackNumber _ stale' (hacklen n)]
    exact hu

/-! ## A lost ACK -/

/-- Peer 1 has the one chunk; the other peer takes any bytes for it. -/
def lostAckLink : Link where
  sender := { sampleEnv with totalChunkTable := [requestEntry (0, sampleHash 0)] }
  receiver := { sampleEnv with shahash := fun _ => sampleHash 0 }
  receiverId := 1
  senderId := 1
  src := sampleSrc

def lostAckPacket (m : Message) : PeerEvent := .packet sampleSrc (samplePacket m) fun _ => 0

/-- Packet `n` of a chunk of zeros. -/
def zeroPacket (n : Nat) : Message := .data n (List.replicate (dataSize (n - 1)) 0)

/-- `count` packets from `n` on are sent and received, and the last is acknowledged. -/
def exchange (n count : Nat) : List (PeerEvent ⊕ PeerEvent) :=
  List.replicate count (.inl (.send fun _ => passAt 0)) ++
    (List.range' n count).map (fun n => .inr (lostAckPacket (zeroPacket n))) ++
    [.inl (lostAckPacket (.ack (n + count - 1)))]

/-- A chunk up to the transmission of its last packet. -/
def lostAckRun : List (PeerEvent ⊕ PeerEvent) :=
  [.inr (.line "out" (some [(0, sampleHash 0)])), .inr (lostAckPacket (.ihave [sampleHash 0])),
    .inl (lostAckPacket (.get (sampleHash 0)))] ++
  [(1, 1), (2, 2), (4, 4), (8, 8), (16, 16), (32, 32), (64, 64), (128, 128), (256, 98)].flatMap
    (fun r => exchange r.1 r.2) ++ [.inl (.send fun _ => passAt 0)]

def lostAckStart : Peer × Peer :=
  (initPeer 1 (fun _ => unsetZero) [requestEntry (0, sampleHash 0)] fun _ _ => 0,
    initPeer 1 (fun _ => unsetZero) [] fun _ _ => 0)

/-- The numbers accepted from peer 1. -/
def acceptedSeqs (log : PeerLog) : List Nat := log.downloads.filterMap fun
  | .accepted _ 1 seq _ _ => some seq
  | _ => none

/-- Packet 354 is the only one in the sender's queue, and its round trip can be inferred. -/
def waitsForLast (s : Peer × Peer) : Bool :=
  (getUploadIndexById 1 s.1.uploads).map (fun r => (r.1, r.2.seqs,
      decide (∀ head ∈ r.2.sentQueueHead, Inferable s.1.uploads.net 0 head.timestamp))) =
    some (0, [maxPacketPerChunk], true)

/-- The receiver's stream stands at 353, with as many packets saved. -/
def standsBeforeLast (s : Peer × Peer) : Bool :=
  (getDownloadIndexById 1 s.2.downloads).map (fun r =>
      (r.2.downloadChunk, r.2.lastAckedRecord.map (·.seq))) =
    some (some (sampleHash 0), [maxPacketPerChunk - 1]) ∧
  s.2.downloads.currentRequest.map (fun r => r.chunks.map fun c =>
      (c.id, c.hash, c.state, c.receivedByteNumber)) =
    some [(0, sampleHash 0, .receiving, (maxPacketPerChunk - 1) * maxPayloadSize)]

/-- The receiver has closed its stream. -/
def closed (s : Peer × Peer) : Bool := (getDownloadIndexById 1 s.2.downloads).isNone

theorem lostAck_run : (match (pairMachine lostAckLink).run lostAckRun lostAckStart with
    | .error _ => false
    | .ok (s, l) => waitsForLast s && standsBeforeLast s &&
      match (pairMachine lostAckLink).run [.inr (lostAckPacket (zeroPacket maxPacketPerChunk))] s with
      | .error _ => false
      | .ok (s', l') => waitsForLast s' && closed s' &&
        decide (acceptedSeqs (l ++ l') = List.range' 1 maxPacketPerChunk)) = true := by
  decide +kernel

/-- The states before and after the last packet is received. -/
theorem lostAck_reach : ∃ s s' log log',
    (pairMachine lostAckLink).Reach PairStart Machine.Any s log ∧
    (pairMachine lostAckLink).Reach PairStart Machine.Any s' log' ∧
    waitsForLast s = true ∧ standsBeforeLast s = true ∧ waitsForLast s' = true ∧ closed s' = true ∧
    acceptedSeqs log' = List.range' 1 maxPacketPerChunk := by
  have hstart : (pairMachine lostAckLink).Reach PairStart Machine.Any lostAckStart [] :=
    .start ⟨⟨1, _, _, _, rfl⟩, 1, _, _, _, rfl⟩
  have hchecked := lostAck_run
  split at hchecked
  · cases hchecked
  · rename_i s log hrun
    simp only [Bool.and_eq_true] at hchecked
    obtain ⟨⟨hwaits, hstands⟩, hlast⟩ := hchecked
    split at hlast
    · cases hlast
    · rename_i s' l hstep
      simp only [Bool.and_eq_true, decide_eq_true_eq] at hlast
      have hreach := hstart.runAny _ hrun
      exact ⟨s, s', log, log ++ l, hreach, hreach.runAny _ hstep, hwaits, hstands, hlast.1.1, hlast.1.2,
        hlast.2⟩

theorem lostAckLink_named : lostAckLink.Named sampleSrc := ⟨rfl, rfl⟩

theorem waitsForLast_found {s : Peer × Peer} (h : waitsForLast s = true) :
    ∃ slot, getUploadIndexById 1 s.1.uploads = some (0, slot) ∧ slot.seqs = [maxPacketPerChunk] ∧
      LastSample s.1.uploads.net 0 slot := by
  obtain ⟨⟨index, slot⟩, hfound, heq⟩ := Option.map_eq_some_iff.mp (of_decide_eq_true h)
  simp only [Prod.mk.injEq, decide_eq_true_eq] at heq
  obtain ⟨rfl, hseqs, hsample⟩ := heq
  exact ⟨slot, hfound, hseqs, fun head hmem _ => hsample head hmem⟩

theorem standsBeforeLast_stream {s : Peer × Peer} (h : standsBeforeLast s = true) :
    StreamAtLast s.2.downloads 1 436 := by
  obtain ⟨hslot, hchunk⟩ := of_decide_eq_true h
  obtain ⟨⟨index, slot⟩, hfound, heq⟩ := Option.map_eq_some_iff.mp hslot
  obtain ⟨hnamed, hrecords⟩ := Prod.mk.inj heq
  obtain ⟨root, hroot, hseq⟩ := List.map_eq_singleton_iff.mp hrecords
  obtain ⟨⟨name, chunks⟩, hcurrent, hchunks⟩ := Option.map_eq_some_iff.mp hchunk
  obtain ⟨chunk, rfl, heq⟩ := List.map_eq_singleton_iff.mp hchunks
  simp only [Prod.mk.injEq] at heq
  obtain ⟨hid, hhash, hstate, hbytes⟩ := heq
  refine ⟨index, slot, sampleHash 0, _, 0, chunk, ⟨hfound, hnamed, hcurrent, ?_, rfl⟩,
    Or.inr ⟨root, hroot, Or.inl ?_⟩, Or.inr (Or.inr ⟨hstate, ?_⟩)⟩
  · simp [getChunkId, Table.lookup, hhash, hid]
  · rw [hseq]
    rfl
  · rw [hbytes]
    decide

/-- The first time the last packet is received it is acknowledged. -/
theorem last_ack_recovered_iff_first : ∃ a b, StreamAtLast b.downloads 1 436 ∧
    LastAckRecovered lostAckLink sampleSrc 0 (List.replicate 436 0)
      (fun _ => 0) (fun _ => 0) (fun _ => 0) (fun _ => 0) a b := by
  obtain ⟨⟨a, b⟩, -, log, -, h, -, hwaits, hstands, -⟩ := lostAck_reach
  obtain ⟨slot, hfound, hseqs, hsample⟩ := waitsForLast_found hwaits
  have hlast := standsBeforeLast_stream hstands
  have hbytes : (List.replicate 436 (0 : UInt8)).length = 436 := List.length_replicate ..
  refine ⟨a, b, hlast, (last_ack_recovered_iff lostAckLink_named h hfound ?_ ?_ _ _ _ _).mpr ?_⟩
  · rw [hseqs]
    exact List.mem_singleton_self _
  · rw [hbytes]
    decide
  · rw [hbytes]
    exact ⟨hlast, hsample⟩

/-- The ACK of the last packet is lost: the receiver has accepted the whole chunk, and does not answer
the packet any more. -/
theorem lost_ack_unanswered : ∃ (a b : Peer) (log : PeerLog) (slot : UploadSlot),
    (pairMachine lostAckLink).Reach PairStart Machine.Any (a, b) log ∧
    getUploadIndexById 1 a.uploads = some (0, slot) ∧ slot.seqs = [maxPacketPerChunk] ∧
    (∀ n ∈ List.range' 1 maxPacketPerChunk, Taken lostAckLink log n) ∧
    ∀ stale clk, processInboundUdp lostAckLink.receiver sampleSrc
      (receiveInto stale (zeroPacket maxPacketPerChunk).datagram) clk b = .ok (b, []) := by
  obtain ⟨-, ⟨a, b⟩, -, log, -, h, -, -, hwaits, hclosed, haccepted⟩ := lostAck_reach
  obtain ⟨slot, hfound, hseqs, -⟩ := waitsForLast_found hwaits
  refine ⟨a, b, log, slot, h, hfound, hseqs, fun n hn => ?_, fun stale clk => ?_⟩
  · rw [← haccepted] at hn
    obtain ⟨act, hmem, heq⟩ := List.mem_filterMap.mp hn
    split at heq
    · cases heq
      exact ⟨_, _, _, hmem⟩
    · cases heq
  · have hnone : getDownloadIndexById 1 b.downloads = none := Option.isNone_iff_eq_none.mp hclosed
    have hlen : (List.replicate (dataSize (maxPacketPerChunk - 1)) (0 : UInt8)).length ≤
        maxPayloadSize := by
      rw [List.length_replicate]
      decide
    have hdata : inboundData lostAckLink.receiver sampleSrc (peerIdFrom lostAckLink.receiver sampleSrc)
        (receiveInto stale (zeroPacket maxPacketPerChunk).datagram) clk b.downloads =
          .ok (b.downloads, []) := by
      rw [show peerIdFrom lostAckLink.receiver sampleSrc = 1 from rfl, inboundData, hnone]
    exact processInboundUdp_data hlen hdata

end Bittorrent
