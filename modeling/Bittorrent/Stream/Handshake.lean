import Bittorrent.Download.Outcomes
import Bittorrent.Stream.Whohas

/-!
# WHOHAS and IHAVE

One peer asks with the packets of `make_packet(WHOHAS, ...)`, another answers with the hashes it has
(`whohas_reply`), and the first reads the answer twice: `packet_contain_chunk` by its count byte,
`update_chunks` by its length. Both readings are the hashes that were asked for and found
(`ReplyRead`), so what `pick_a_chunk` picks from the packet its sender has.

A reply is a sublist of the hashes asked for, so it is no longer than a WHOHAS packet and fits one IHAVE
(`heldHashes_length`). Both readings of the received packet then give that list (`receive_hashes`,
`receive_updateChunks`), and the rest is `pick_a_chunk`: it goes through the entries in table order and
takes the first that is unfinished and listed (`pickEntry_first`).
-/

namespace Bittorrent

variable {env : Env} {d : Downloads} {request : Request} {packets : List Message}
  {hashes : List Hash} {m : Message}

/-! ## The answer -/

/-- The hashes a peer with this has-chunk table finds. -/
def heldHashes (table : List Chunk) (hashes : List Hash) : List Hash :=
  hashes.filter fun h => findChunk h table

theorem mem_heldHashes {table : List Chunk} {h : Hash} :
    h ∈ heldHashes table hashes ↔ h ∈ hashes ∧ findChunk h table = true := List.mem_filter

theorem heldHashes_length (table : List Chunk) (h : hashes.length ≤ chunkPerPacket) :
    (heldHashes table hashes).length ≤ chunkPerPacket := Nat.le_trans (List.length_filter_le _ _) h

theorem inboundWhohas_receive (stale : Memory) (src : Addr) (h : hashes.length ≤ chunkPerPacket) :
    inboundWhohas src (receiveInto stale (Message.whohas hashes).datagram) d = .ok (d,
      if heldHashes d.hasChunkTable hashes = [] then []
      else [.sent (some src) (.ihave (heldHashes d.hasChunkTable hashes))]) := by
  have hlists : (Message.whohas hashes).Lists hashes := Or.inl rfl
  rw [inboundWhohas, receive_chunkCount stale hlists h, receive_hashes stale hlists h]
  change (if heldHashes d.hasChunkTable hashes = [] then _ else _) = _
  split_ifs with hempty hlength
  · rfl
  · rfl
  · exact absurd (heldHashes_length d.hasChunkTable h) hlength

theorem printIncomingPacket_ok (stale : Memory) (hm : m.Lists hashes)
    (h : hashes.length ≤ chunkPerPacket) :
    printIncomingPacket (receiveInto stale m.datagram) = .ok () := by
  rw [printIncomingPacket, receive_packetLength m stale (hm.packetLength_lt h), hm.packetLength]
  have hlength : hashPacketLength hashes.length + 20 ≤ 2 ^ 16 := by
    simp only [hashPacketLength, sha1HashSize, headerLength, chunkNumberAndPaddingSize,
      chunkPerPacket] at h ⊢
    omega
  rw [printLoop_ok hlength (2 ^ 16) 20 (by omega), ite_self]

/-! ## The answer read -/

/-- The entry is unfinished, asked for and held by the other peer. -/
def Obtainable (table : List Chunk) (hashes : List Hash) (chunk : Chunk) : Prop :=
  chunk.state = .notStarted ∧ chunk.hash ∈ hashes ∧ findChunk chunk.hash table = true

/-- What the peer that asked for `hashes` makes of the reply of peer `p` with this table. -/
structure ReplyRead (table : List Chunk) (hashes : List Hash) (p : Int) (reply : Incoming)
    (d : Downloads) : Prop where
  /-- By its count byte. -/
  listed : ∀ h, packetContainChunk reply h = true ↔ h ∈ hashes ∧ findChunk h table = true
  /-- By its length, once the connection is updated. -/
  offered : ∀ h, peerContainChunk d.connections p h = true ↔
    h ∈ hashes ∧ findChunk h table = true
  /-- The first obtainable entry is picked. -/
  picked : ∀ entry chunk, pickAChunk reply d = some (entry, chunk) ↔
    ∃ request, d.currentRequest = some request ∧ request.chunks[entry]? = some chunk ∧
      Obtainable table hashes chunk ∧
      ∀ (i : Nat) (c : Chunk), i < entry → request.chunks[i]? = some c → ¬ Obtainable table hashes c
  /-- None is picked exactly if there is none. -/
  nothing : pickAChunk reply d = none ↔
    ∀ request, d.currentRequest = some request → ∀ c ∈ request.chunks, ¬ Obtainable table hashes c

theorem pickEntry_first {offered : Hash → Bool} {P : Chunk → Prop}
    (hP : ∀ c : Chunk, (decide (c.state = .notStarted) && offered c.hash) = true ↔ P c)
    (entry : Nat) (chunk : Chunk) : pickEntry offered d = some (entry, chunk) ↔
      ∃ request, d.currentRequest = some request ∧ request.chunks[entry]? = some chunk ∧ P chunk ∧
        ∀ (i : Nat) (c : Chunk), i < entry → request.chunks[i]? = some c → ¬ P c := by
  unfold pickEntry
  cases hcurrent : d.currentRequest with
  | none => simp
  | some request =>
    simp only [Table.lookup_eq_some, hP, ne_eq, Option.some.injEq]
    constructor
    · exact fun h => ⟨request, rfl, h⟩
    · rintro ⟨request', rfl, h⟩
      exact h

theorem pickEntry_nothing {offered : Hash → Bool} {P : Chunk → Prop}
    (hP : ∀ c : Chunk, (decide (c.state = .notStarted) && offered c.hash) = true ↔ P c) :
    pickEntry offered d = none ↔
      ∀ request, d.currentRequest = some request → ∀ c ∈ request.chunks, ¬ P c := by
  unfold pickEntry
  cases hcurrent : d.currentRequest with
  | none => simp
  | some request =>
    simp only [Table.lookup_eq_none, hP, ne_eq, Option.some.injEq]
    constructor
    · rintro h request' rfl c hc
      obtain ⟨i, hi⟩ := List.mem_iff_getElem?.mp hc
      exact h i c hi
    · exact fun h i c hi => h request rfl c (List.mem_of_getElem? hi)

theorem replyRead (table : List Chunk) (p : Int) (stale : Memory) (hd : d.peers.Nodup)
    (h : hashes.length ≤ chunkPerPacket) :
    ReplyRead table hashes p
      (receiveInto stale (Message.ihave (heldHashes table hashes)).datagram)
      (updateConnections p
        (receiveInto stale (Message.ihave (heldHashes table hashes)).datagram) d) := by
  have hlists : (Message.ihave (heldHashes table hashes)).Lists (heldHashes table hashes) :=
    Or.inr rfl
  have hlength := heldHashes_length table h
  have hlisted : ∀ k, packetContainChunk
      (receiveInto stale (Message.ihave (heldHashes table hashes)).datagram) k = true ↔
      k ∈ hashes ∧ findChunk k table = true :=
    fun k => (receive_packetContainChunk stale hlists hlength k).trans mem_heldHashes
  have hobtainable : ∀ c : Chunk, (decide (c.state = .notStarted) && packetContainChunk
      (receiveInto stale (Message.ihave (heldHashes table hashes)).datagram) c.hash) = true ↔
      Obtainable table hashes c := by
    intro c
    rw [Bool.and_eq_true, decide_eq_true_eq, hlisted]
    rfl
  refine ⟨hlisted, fun k => ?_, pickEntry_first hobtainable, pickEntry_nothing hobtainable⟩
  rw [peerContainChunk_update hd, receive_updateChunks stale hlists hlength, mem_heldHashes]
  simp

/-- A WHOHAS packet of peer A is answered by B if B has one of its hashes; A, in any state it can
reach, reads from the answer what B has of them. -/
theorem whohas_reply (h : makeWhohas request = .ok packets) (hw : Message.whohas hashes ∈ packets)
    (stale stale' : Memory) (srcA srcB : Addr) (dB : Downloads) :
    (heldHashes dB.hasChunkTable hashes = [] ↔
      ∀ k ∈ hashes, findChunk k dB.hasChunkTable = false) ∧
    inboundWhohas srcA (receiveInto stale (Message.whohas hashes).datagram) dB = .ok (dB,
      if heldHashes dB.hasChunkTable hashes = [] then []
      else [.sent (some srcA) (.ihave (heldHashes dB.hasChunkTable hashes))]) ∧
    ∀ {env : Env} {max : Nat} {has : List Chunk} {files : String → Memory} {dA : Downloads}
      {log : DownloadLog} (_ : (downloadMachine env).Reach (· = initDownloads max has files)
        Machine.Any dA log) (idB : Int) (clk : Clock) (reply : Incoming),
      reply = receiveInto stale' (Message.ihave (heldHashes dB.hasChunkTable hashes)).datagram →
      (∃ r, inboundIhave srcB idB reply clk dA = .ok r) ∧
        ReplyRead dB.hasChunkTable hashes idB reply (updateConnections idB reply dA) := by
  have hlength := makeWhohas_length h hw
  refine ⟨?_, inboundWhohas_receive stale srcA hlength, ?_⟩
  · simp [heldHashes]
  · rintro env max has files dA log hreach idB clk reply rfl
    refine ⟨?_, replyRead _ idB stale' (peers_nodup_reach hreach) hlength⟩
    rw [inboundIhave, printIncomingPacket_ok stale' (Or.inr rfl) (heldHashes_length _ hlength)]
    dsimp only
    split_ifs
    · exact ⟨_, rfl⟩
    · exact ⟨_, rfl⟩

/-- Peer 1 has the second of two chunks: its answer lists that one, and it is picked. -/
theorem whohas_reply_second : ∃ reply d,
    pickAChunk reply d = some (1, requestEntry (1, sampleHash 1)) ∧
      ReplyRead [requestEntry (7, sampleHash 1)] [sampleHash 0, sampleHash 1] 1 reply d := by
  have hstart : (downloadMachine sampleEnv).Reach (· = initDownloads 1 [] fun _ _ => 0) Machine.Any
    (initDownloads 1 [] fun _ _ => 0) [] := .start rfl
  have hreach := hstart.step (e := DownloadEvent.userGet "out"
    (some [(0, sampleHash 0), (1, sampleHash 1)])) trivial rfl
  have hpackets : makeWhohas ⟨none, [requestEntry (0, sampleHash 0), requestEntry (1, sampleHash 1)]⟩ =
    .ok [.whohas [sampleHash 0, sampleHash 1]] := rfl
  have hread := ((whohas_reply hpackets List.mem_cons_self (fun _ => 0) (fun _ => 0) sampleSrc
    sampleSrc (initDownloads 1 [requestEntry (7, sampleHash 1)] fun _ _ => 0)).2.2 hreach 1
    (fun _ => 0) _ rfl).2
  refine ⟨_, _, (hread.picked 1 _).mpr ⟨_, rfl, rfl, ⟨rfl, ?_, ?_⟩, ?_⟩, hread⟩
  · decide
  · decide
  · intro i c hi hc hobtainable
    obtain rfl : i = 0 := by omega
    cases hc
    exact absurd hobtainable.2.2 (by decide)

end Bittorrent
