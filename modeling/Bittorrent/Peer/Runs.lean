import Bittorrent.Stream.Ack

/-!
# Runs of a whole peer

Every step of a peer is a step of one of its sides (`peerMove`), so a run of the main loop is a run
of the uploading side and one of the downloading side, and what their runs keep holds between two
iterations. In the other direction a run of a stream is a run of two whole peers: each of its steps
is an event of the peer at one end, dispatched by `process_inbound_udp`.

`peerMove` goes through `process_inbound_udp` and the events of the main loop once: each is a step of the
uploading side with the other side unchanged, or the other way round, or none. `Machine.Reach.project` makes
of it the two projections, and every invariant of a side is one of the peer without a further proof. For the
converse a step of a stream is given the event that the peer at that end reads, a packet built by the other
end, so it has to be shown that the dispatch leads to the case meant (`processInboundUdp_message`).
-/

namespace Bittorrent

variable {env : Env} {s s' a b : Peer} {log l : PeerLog} {ev : PeerEvent}

/-! ## Sides -/

/-- No peer of the list is read as `ID_NULL`. -/
def ListedPeers (env : Env) : Prop := ∀ p ∈ env.peers, p.id.bmod (2 ^ 16) ≠ idNull

theorem peerIdFrom_ne (h : ListedPeers env) (src : Addr) : peerIdFrom env src ≠ idNull := by
  unfold peerIdFrom btPeerId
  split
  · rename_i p hfind
    exact h p (List.mem_of_find?_eq_some hfind)
  · decide

/-- A step of one side, or of none. -/
inductive PeerMove (env : Env) (s : Peer) : PeerLog → Peer → Prop
  | idle : PeerMove env s [] s
  | upload {u : Uploads} {up : UploadLog} (ev : UploadEvent)
      (hs : (uploadMachine env).step ev s.uploads = .ok (u, up)) :
      PeerMove env s (up.map .inl) { s with uploads := u }
  | download {d : Downloads} {down : DownloadLog} (ev : DownloadEvent)
      (hvalid : ListedPeers env → ValidPeer ev)
      (hs : (downloadMachine env).step ev s.downloads = .ok (d, down)) :
      PeerMove env s (down.map .inr) { s with downloads := d }

theorem upload_ok {r : Except Fault (Uploads × UploadLog)} (h : s.upload r = .ok (s', l)) :
    ∃ u up, r = .ok (u, up) ∧ s' = { s with uploads := u } ∧ l = up.map .inl := by
  unfold Peer.upload at h
  split at h
  · cases h
  · rename_i u up
    cases h
    exact ⟨u, up, rfl, rfl, rfl⟩

theorem download_ok {r : Except Fault (Downloads × DownloadLog)} (h : s.download r = .ok (s', l)) :
    ∃ d down, r = .ok (d, down) ∧ s' = { s with downloads := d } ∧ l = down.map .inr := by
  unfold Peer.download at h
  split at h
  · cases h
  · rename_i d down
    cases h
    exact ⟨d, down, rfl, rfl, rfl⟩

theorem peerMove_upload (ev : UploadEvent)
    (h : s.upload ((uploadMachine env).step ev s.uploads) = .ok (s', l)) : PeerMove env s l s' := by
  obtain ⟨u, up, hs, rfl, rfl⟩ := upload_ok h
  exact .upload ev hs

theorem peerMove_download (ev : DownloadEvent) (hvalid : ListedPeers env → ValidPeer ev)
    (h : s.download ((downloadMachine env).step ev s.downloads) = .ok (s', l)) :
    PeerMove env s l s' := by
  obtain ⟨d, down, hs, rfl, rfl⟩ := download_ok h
  exact .download ev hvalid hs

theorem inboundGetPacket_move {p : Int} {packet : Incoming} {clk : Clock}
    (h : inboundGetPacket env p packet clk s = .ok (s', l)) : PeerMove env s l s' := by
  unfold inboundGetPacket at h
  simp only at h
  split_ifs at h
  · exact peerMove_upload (.get p _ clk) h
  · cases h
    exact .idle

theorem processInboundUdp_move {src : Addr} {packet : Incoming} {clk : Clock}
    (h : processInboundUdp env src packet clk s = .ok (s', l)) : PeerMove env s l s' := by
  unfold processInboundUdp at h
  simp only at h
  split_ifs at h
  · exact peerMove_download (.whohas src packet) (fun _ => trivial) h
  · exact peerMove_download (.ihave src _ packet clk) (fun hl => peerIdFrom_ne hl src) h
  · exact inboundGetPacket_move h
  · exact peerMove_download (.data src _ packet clk) (fun hl => peerIdFrom_ne hl src) h
  · exact peerMove_upload (.ack _ _ clk) h
  · exact peerMove_download (.denied _) (fun _ => trivial) h
  · cases h
    exact .idle

theorem peerMove (h : (peerMachine env).step ev s = .ok (s', l)) : PeerMove env s l s' := by
  cases ev with
  | packet src packet clk => exact processInboundUdp_move h
  | line outf parsed => exact peerMove_download (.userGet outf parsed) (fun _ => trivial) h
  | send clk => exact peerMove_upload (.send clk) h
  | clean now => exact peerMove_upload (.clean now) h
  | crash clk => exact peerMove_download (.crash clk _) (fun _ => trivial) h
  | finish => exact peerMove_download .finish (fun _ => trivial) h

/-! ## Projections -/

variable {max : Nat} {unset : Nat → UnsetSlot} {has : List Chunk} {files : String → Memory}

/-- A run of a peer is a run of its uploading side. -/
theorem uploads_reach
    (h : (peerMachine env).Reach (· = initPeer max unset has files) Machine.Any s log) :
    (uploadMachine env).Reach (· = initUploads max unset) Machine.Any s.uploads log.uploads := by
  refine h.project Peer.uploads Sum.getLeft? (fun s hs => by rw [hs]; rfl) fun s log ev s' l _ hs => ?_
  cases peerMove hs with
  | idle => exact Or.inl ⟨rfl, rfl⟩
  | @upload u up ev' hs' =>
    rw [← uploads_inl up] at hs'
    exact Or.inr ⟨ev', trivial, hs'⟩
  | @download _ down _ _ _ => exact Or.inl ⟨rfl, uploads_inr down⟩

/-- A run of a peer is a run of its downloading side; with a peer list without `ID_NULL` no sender in
it is `ID_NULL`. -/
theorem downloads_reach
    (h : (peerMachine env).Reach (· = initPeer max unset has files) Machine.Any s log) :
    (downloadMachine env).Reach (· = initDownloads max has files)
      (fun _ _ ev => ListedPeers env → ValidPeer ev) s.downloads log.downloads := by
  refine h.project Peer.downloads Sum.getRight? (fun s hs => by rw [hs]; rfl)
    fun s log ev s' l _ hs => ?_
  cases peerMove hs with
  | idle => exact Or.inl ⟨rfl, rfl⟩
  | @upload _ up _ _ => exact Or.inl ⟨rfl, downloads_inl up⟩
  | @download d down ev' hvalid hs' =>
    rw [← downloads_inr down] at hs'
    exact Or.inr ⟨ev', hvalid, hs'⟩

/-- Between two iterations of the main loop, after any packets and lines: every sent queue agrees
with what its slot has sent, every buffer with what was saved to it, and the free slots are ready for
another stream. -/
theorem peerRun_invariants
    (h : (peerRun env).Reach (· = initPeer max unset has files) Machine.Any s log) :
    Good QueueInv QueueStep s.uploads log.uploads ∧ DownloadInv s.downloads log.downloads ∧
      CleanUploads s.uploads ∧ (ListedPeers env → CleanDownloads s.downloads) := by
  have hup := uploads_reach h.unbatch
  have hdown := downloads_reach h.unbatch
  exact ⟨queueInv_reach hup, downloadInv_reach hdown, cleanUploads_reach env hup,
    fun hpeers => cleanDownloads_reach env (hdown.mono fun _ _ _ hok => hok hpeers)⟩

/-! ## The two ends of a stream -/

variable {k : Link} {src : Addr}

theorem processInboundUdp_message (env : Env) (src : Addr) (m : Message) (stale : Memory)
    (clk : Clock) (s : Peer) (h : m.packetLength < 2 ^ 16) :
    processInboundUdp env src (receiveInto stale m.datagram) clk s =
      let packet := receiveInto stale m.datagram
      match m with
      | .whohas _ => s.download (inboundWhohas src packet s.downloads)
      | .ihave _ => s.download (inboundIhave src (peerIdFrom env src) packet clk s.downloads)
      | .get _ => inboundGetPacket env (peerIdFrom env src) packet clk s
      | .data _ _ => s.download (inboundData env src (peerIdFrom env src) packet clk s.downloads)
      | .ack _ => s.upload (inboundAck env (peerIdFrom env src) packet.ackNumber clk s.uploads) := by
  rw [processInboundUdp, if_pos (receive_valid m stale h), receive_packetType m stale h]
  cases m <;> rfl

theorem processInboundUdp_ack {stale : Memory} {n : Nat} {clk : Clock} {u : Uploads}
    {up : UploadLog} (h : inboundAck env (peerIdFrom env src)
      (receiveInto stale (Message.ack n).datagram).ackNumber clk s.uploads = .ok (u, up)) :
    processInboundUdp env src (receiveInto stale (Message.ack n).datagram) clk s =
      .ok ({ s with uploads := u }, up.map .inl) := by
  have hlen : (Message.ack n).packetLength < 2 ^ 16 := show headerLength < 2 ^ 16 by decide
  rw [processInboundUdp_message env src (.ack n) stale clk s hlen]
  exact congrArg s.upload h

theorem processInboundUdp_data {stale : Memory} {seq : Nat} {bytes : List UInt8} {clk : Clock}
    {d : Downloads} {down : DownloadLog} (hbytes : bytes.length ≤ maxPayloadSize)
    (h : inboundData env src (peerIdFrom env src)
      (receiveInto stale (Message.data seq bytes).datagram) clk s.downloads = .ok (d, down)) :
    processInboundUdp env src (receiveInto stale (Message.data seq bytes).datagram) clk s =
      .ok ({ s with downloads := d }, down.map .inr) := by
  have hlen : (Message.data seq bytes).packetLength < 2 ^ 16 := by
    simp only [Message.packetLength, headerLength, maxPayloadSize] at hbytes ⊢
    omega
  rw [processInboundUdp_message env src (.data seq bytes) stale clk s hlen]
  exact congrArg s.download h

theorem peerMachine_packet (env : Env) (src : Addr) (packet : Incoming) (clk : Clock) (s : Peer) :
    (peerMachine env).step (.packet src packet clk) s = processInboundUdp env src packet clk s := rfl

/-- Two peers, each reading its own events. -/
def pairMachine (k : Link) :
    Machine (Peer × Peer) (PeerEvent ⊕ PeerEvent) ((Nat × StreamAction) ⊕ DownloadAction) Fault where
  step
    | .inl e, (a, b) =>
      match (peerMachine k.sender).step e a with
      | .error f => .error f
      | .ok (a, l) => .ok ((a, b), l)
    | .inr e, (a, b) =>
      match (peerMachine k.receiver).step e b with
      | .error f => .error f
      | .ok (b, l) => .ok ((a, b), l)

/-- The two ends of a link know each other under its ids. -/
def Link.Named (k : Link) (src : Addr) : Prop :=
  peerIdFrom k.sender src = k.receiverId ∧ peerIdFrom k.receiver k.src = k.senderId

/-- A DATA packet that `make_packet` has room for. -/
def StreamEvent.Fits : StreamEvent → Prop
  | .data _ _ bytes _ => bytes.length ≤ maxPayloadSize
  | _ => True

/-- The event that the peer at one end reads. -/
def StreamEvent.toPeers (k : Link) (src : Addr) : StreamEvent → PeerEvent ⊕ PeerEvent
  | .send clk => .inl (.send clk)
  | .ack stale n clk => .inl (.packet src (receiveInto stale (Message.ack n).datagram) clk)
  | .data stale seq bytes clk =>
    .inr (.packet k.src (receiveInto stale (Message.data seq bytes).datagram) clk)

theorem pairMachine_inl {b' : Peer} (h : (peerMachine k.sender).step ev a = .ok (b', l)) :
    (pairMachine k).step (.inl ev) (a, b) = .ok ((b', b), l) := by
  simp only [pairMachine, h]

theorem pairMachine_inr {b' : Peer} (h : (peerMachine k.receiver).step ev b = .ok (b', l)) :
    (pairMachine k).step (.inr ev) (a, b) = .ok ((a, b'), l) := by
  simp only [pairMachine, h]

theorem pairMachine_step {e : StreamEvent} {t t' : System} {l : SystemLog} (hk : k.Named src)
    (hfits : e.Fits) (h : (streamMachine k).step e t = .ok (t', l)) :
    (pairMachine k).step (e.toPeers k src)
      ({ a with uploads := t.sender }, { b with downloads := t.receiver }) =
        .ok (({ a with uploads := t'.sender }, { b with downloads := t'.receiver }), l) := by
  cases e with
  | send clk =>
    cases h
    rfl
  | ack stale n clk =>
    simp only [streamMachine, ← hk.1] at h
    split at h
    · cases h
    · rename_i u up hs
      cases h
      simp only [StreamEvent.toPeers]
      refine pairMachine_inl ?_
      rw [peerMachine_packet]
      exact processInboundUdp_ack hs
  | data stale seq bytes clk =>
    simp only [streamMachine, ← hk.2] at h
    split at h
    · cases h
    · rename_i d down hs
      cases h
      simp only [StreamEvent.toPeers]
      refine pairMachine_inr ?_
      rw [peerMachine_packet]
      exact processInboundUdp_data hfits hs

/-- A run of a stream is a run of two whole peers. -/
theorem pairMachine_reach {t : System} {log : SystemLog} {Init : System → Prop}
    {Ok : System → SystemLog → StreamEvent → Prop} (hk : k.Named src)
    (hfits : ∀ t log e, (streamMachine k).Reach Init Ok t log → Ok t log e → e.Fits)
    (h : (streamMachine k).Reach Init Ok t log) :
    (pairMachine k).Reach (fun r => Init ⟨r.1.uploads, r.2.downloads⟩) Machine.Any
      ({ a with uploads := t.sender }, { b with downloads := t.receiver }) log := by
  induction h with
  | start hs => exact .start hs
  | step hr hok hs ih => exact ih.step trivial (pairMachine_step hk (hfits _ _ _ hr hok) hs)

/-- In particular a run of a stream that a GET has opened, over a channel that delivers only what was
sent: its packets all fit. -/
theorem opened_pairMachine_reach {t : System} {log : SystemLog} {c : Int} (hk : k.Named src)
    (h : (streamMachine k).Reach (Opened k c) (Delivered k) t log) :
    (pairMachine k).Reach (fun r => Opened k c ⟨r.1.uploads, r.2.downloads⟩) Machine.Any
      ({ a with uploads := t.sender }, { b with downloads := t.receiver }) log := by
  refine pairMachine_reach hk (fun t log e hr hok => ?_) h
  cases e with
  | send clk => trivial
  | ack stale n clk => trivial
  | data stale seq bytes clk =>
    obtain ⟨n, -, -, stack, rfl⟩ := hok.1.piece (ackInv_reach hr).sender
    exact chunkData_length k.sender stack n

end Bittorrent
