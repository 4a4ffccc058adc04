import Bittorrent.Stream.Ack
import Bittorrent.Upload.Chunk

/-!
# The receiver's copy

While the tracker holds the number `n` the receiver's entry holds the first `n` pieces of the
sender's chunk, over every run in which no packet with the tracker's own number is delivered
(`NoRepeat`). The receiver takes a packet whose number equals the tracker's answer, so a second copy
of the newest packet is appended once more.

`Holding` names the entry, its id, its buffer and the number `n` of pieces in it. A packet that the tracker
does not answer with its own number changes only the record; the next one is piece `n + 1`, and its payload
is appended (`Holding.save`), as every payload up to the last has its full length (`piece_length`). Only the
newest packet is answered with its own number and appended without being new, and `NoRepeat` excludes it.
The id is looked up by the hash at each packet; that it is the entry's position is part of what a stream is
opened with, and no save changes a line (`getChunkId_set`).
-/

namespace Bittorrent

variable {k : Link} {c : Int} {s s' : System} {log l : SystemLog} {p : Int} {d d' : Downloads}
  {index entry seq n : Nat} {slot slot' : DownloadSlot} {hash : Hash} {request : Request}
  {chunk chunk' : Chunk} {packet : Incoming} {bytes : List UInt8}

/-! ## What the receiver holds -/

/-- The bytes an entry has received. -/
def Chunk.received (chunk : Chunk) : List UInt8 :=
  match chunk.data with
  | none => []
  | some data => readBytes data 0 chunk.receivedByteNumber

/-- The newest number of the sender's stream, and the entry its packets are saved to. -/
def streamEntry (k : Link) (d : Downloads) : Option (Nat × Chunk) :=
  match getDownloadIndexById k.senderId d, d.currentRequest with
  | some (_, slot), some request =>
    match slot.lastAckedRecord, slot.downloadChunk with
    | root :: _, some hash =>
      request.chunks[(getChunkId hash request.chunks).toNat]?.map fun chunk => (root.seq, chunk)
    | _, _ => none
  | _, _ => none

/-- The entry holds the first packets of the chunk, up to the tracker's number. -/
def Copied (k : Link) (c : Int) (s : System) : Prop :=
  ∃ n chunk, streamEntry k s.receiver = some (n, chunk) ∧
    chunk.receivedByteNumber = min (maxPayloadSize * n) btChunkSize ∧
    chunk.received = (masterChunk k.sender c).take chunk.receivedByteNumber

/-- The entry of the stream is full, and was verified or given up. -/
def Completed (log : SystemLog) : Prop := ∃ entry, .completed entry ∈ log.downloads

/-- A stream is open, the offsets of its chunk fit an `int`, the sender's master data file has the chunk
to its end, and the id of the receiver's entry is its position. -/
def OpenedInPlace (k : Link) (c : Int) (s : System) : Prop :=
  ChunkHeld k.sender c ∧ UploadOpened k c s.sender ∧ ∃ request entry chunk,
    DownloadOpened k request entry chunk s.receiver ∧ getChunkId chunk.hash request.chunks = entry

/-- The channel delivers what was sent, but no packet with the tracker's own number. -/
def NoRepeat (k : Link) (s : System) (log : SystemLog) (ev : StreamEvent) : Prop :=
  Delivered k s log ev ∧ ∀ stale seq bytes clk, ev = .data stale seq bytes clk →
    ∀ n chunk, streamEntry k s.receiver = some (n, chunk) → seq ≠ n

theorem streamEntry_eq (htracks : Tracks d k.senderId index slot n)
    (htarget : Target d k.senderId index slot hash request entry chunk) :
    streamEntry k d = some (n, chunk) := by
  obtain ⟨root, hroot, rfl⟩ := List.map_eq_singleton_iff.mp htracks.newest
  unfold streamEntry
  simp only [htarget.found, htarget.current, htarget.named, hroot, htarget.id, Int.toNat_natCast,
    htarget.get, Option.map_some]

/-! ## A save -/

theorem received_save (hstate : chunk.state = .receiving)
    (hempty : chunk.data = none → chunk.receivedByteNumber = 0)
    (hsave : saveDataPacket packet chunk = .ok chunk') :
    chunk'.received = chunk.received ++
        readBytes packet.buf packet.headerLength packet.payloadSize ∧
      (chunk'.data = none → chunk'.receivedByteNumber = 0) := by
  have hheld : ∀ buf, chunk.buffer = some buf →
      readBytes buf 0 chunk.receivedByteNumber = chunk.received := by
    intro buf hbuf
    cases hdata : chunk.data with
    | none =>
      rw [hempty hdata, Chunk.received, hdata]
      rfl
    | some data =>
      rw [Chunk.buffer, hdata, if_neg (by simp)] at hbuf
      cases hbuf
      rw [Chunk.received, hdata]
  have hbuffer : chunk.buffer ≠ none := by
    rw [Chunk.buffer]
    split_ifs with hnone
    · exact Option.some_ne_none _
    · exact fun hdata => hnone ⟨by rw [hdata]; rfl, hstate⟩
  obtain ⟨buf, hbuf⟩ := Option.ne_none_iff_exists'.mp hbuffer
  rw [saveDataPacket_eq packet (by rw [hstate]; decide), hbuf] at hsave
  simp only at hsave
  split_ifs at hsave with hsize hfit
  · cases hsave
    refine ⟨?_, fun hdata => by cases hdata⟩
    rw [hsize, Chunk.received]
    exact (hheld buf hbuf).trans (List.append_nil _).symm
  · cases hsave
    refine ⟨?_, fun hdata => by cases hdata⟩
    rw [Chunk.received]
    simp only
    rw [readBytes_append, Nat.zero_add, readBytes_copyBytes,
      readBytes_copyBytes_of_disjoint (by omega), hheld buf hbuf]
    congr 1
    exact List.map_congr_left fun j _ => by rw [Nat.zero_add]

/-! ## The invariant -/

/-- The stream is open, and its entry holds the first `n` pieces of the chunk. -/
structure Holding (k : Link) (c : Int) (d : Downloads) (index : Nat) (slot : DownloadSlot)
    (hash : Hash) (request : Request) (entry : Nat) (chunk : Chunk) (n : Nat) : Prop where
  tracks : Tracks d k.senderId index slot n
  target : Target d k.senderId index slot hash request entry chunk
  state : chunk.state = .receiving
  empty : chunk.data = none → chunk.receivedByteNumber = 0
  bound : n < maxPacketPerChunk
  count : chunk.receivedByteNumber = maxPayloadSize * n
  bytes : chunk.received = (masterChunk k.sender c).take (maxPayloadSize * n)

structure CopyInv (k : Link) (c : Int) (s : System) (log : SystemLog) : Prop where
  ack : AckInv k c s log
  id : ChunkHeld k.sender c
  holding : ¬ Completed log → ∃ index slot hash request entry chunk n,
    Holding k c s.receiver index slot hash request entry chunk n

theorem piece_length (env : Env) (c : Int) (n : Nat) : (piece (masterChunk env c) (n + 1)).length =
    min maxPayloadSize (btChunkSize - maxPayloadSize * n) := by
  rw [piece, List.length_take, List.length_drop, masterChunk, readBytes_length, Nat.add_sub_cancel,
    Nat.mul_comm]

theorem getChunkId_set {chunks : List Chunk} (hget : chunks[entry]? = some chunk)
    (hline : chunk'.line = chunk.line) :
    getChunkId hash (chunks.set entry chunk') = getChunkId hash chunks := by
  rw [getChunkId_eq, getChunkId_eq, List.map_set, hline,
    Table.set_self (by rw [List.getElem?_map, hget]; rfl)]

theorem Holding.save (h : Holding k c d index slot hash request entry chunk n)
    (hbytes : readBytes packet.buf packet.headerLength packet.payloadSize =
      piece (masterChunk k.sender c) (n + 1))
    (hsave : saveDataPacket packet chunk = .ok chunk')
    (hpart : ¬ (chunk'.receivedByteNumber = btChunkSize ∧ chunk'.state ≠ .owned))
    (hname : slot'.downloadChunk = slot.downloadChunk)
    (htracks : Tracks (d.write index slot') k.senderId index slot' (n + 1)) :
    Holding k c ((d.write index slot').writeChunk entry chunk') index slot' hash
      { request with chunks := request.chunks.set entry chunk' } entry chunk' (n + 1) := by
  obtain ⟨-, -, hstate, hadd⟩ := saveDataPacket_ok hsave
  obtain ⟨happend, hempty⟩ := received_save h.state h.empty hsave
  have hbound := h.bound
  have hlen := congrArg List.length hbytes
  rw [readBytes_length, piece_length] at hlen
  have hcount : chunk'.receivedByteNumber = maxPayloadSize * n + packet.payloadSize := by
    rw [hadd (by rw [h.state]; decide), h.count]
  have hreceiving : chunk'.state = .receiving := hstate.trans h.state
  have hnotfull : chunk'.receivedByteNumber ≠ btChunkSize := fun hfull =>
    hpart ⟨hfull, by rw [hreceiving]; decide⟩
  simp only [maxPacketPerChunk, maxPayloadSize, btChunkSize] at hbound hlen hcount hnotfull
  have hchunks : (request.chunks.set entry chunk')[entry]? = some chunk' :=
    Table.get_set_self (List.getElem?_eq_some_iff.mp h.target.get).1
  refine ⟨htracks.congr rfl, ⟨htracks.found, hname.trans h.target.named, ?_, ?_, hchunks⟩, hreceiving,
    hempty, ?_, ?_, ?_⟩
  · exact writeChunk_currentRequest h.target.current entry chunk'
  · exact (getChunkId_set h.target.get (saveDataPacket_line hsave)).trans h.target.id
  · simp only [maxPacketPerChunk]
    omega
  · simp only [maxPayloadSize]
    omega
  · rw [happend, hbytes, h.bytes, piece, Nat.add_sub_cancel, Nat.mul_succ, List.take_add,
      Nat.mul_comm n]

theorem Holding.track (h : Holding k c d index slot hash request entry chunk n)
    (hname : slot'.downloadChunk = slot.downloadChunk)
    (htracks : Tracks (d.write index slot') k.senderId index slot' n) :
    Holding k c (d.write index slot') index slot' hash request entry chunk n :=
  ⟨htracks, ⟨htracks.found, hname.trans h.target.named, h.target.current, h.target.id, h.target.get⟩,
    h.state, h.empty, h.bound, h.count, h.bytes⟩

theorem copyInv_opened (h : OpenedInPlace k c s) : CopyInv k c s [] := by
  obtain ⟨hid, hup, request, entry, chunk, hdown, hplace⟩ := h
  refine ⟨ackInv_opened ⟨hup, request, entry, chunk, hdown⟩, hid, fun _ => ?_⟩
  obtain ⟨d₀, index, slot, hclean, hentry, hd, hname, htracks⟩ := hdown.tracks
  obtain ⟨hnone, hzero⟩ := hclean.entries request entry chunk hentry.current hentry.get hentry.state
  have hget : (request.chunks.set entry { chunk with state := .receiving })[entry]? = some _ :=
    Table.get_set_self (List.getElem?_eq_some_iff.mp hentry.get).1
  refine ⟨index, slot, chunk.hash,
    { request with chunks := request.chunks.set entry { chunk with state := .receiving } }, entry,
    { chunk with state := .receiving }, 0, htracks, ⟨htracks.found, hname, ?_, ?_, hget⟩, rfl,
    fun _ => hzero, by decide, hzero, ?_⟩
  · rw [hd]
    exact writeChunk_currentRequest hentry.current entry { chunk with state := .receiving }
  · have hline : ({ chunk with state := .receiving } : Chunk).line = chunk.line := rfl
    exact (getChunkId_set hentry.get hline).trans hplace
  · rw [Chunk.received]
    simp only [hnone]
    rfl

theorem completed_mono (h : ¬ Completed (log ++ l)) : ¬ Completed log := by
  rintro ⟨e, hmem⟩
  exact h ⟨e, by rw [downloads_append]; exact List.mem_append_left _ hmem⟩

theorem Holding.data {clk : Clock} {down : DownloadLog}
    (h : Holding k c d index slot hash request entry chunk n) (hvalid : k.senderId ≠ idNull)
    (hseq : packet.seqNumber = n + 1 → readBytes packet.buf packet.headerLength packet.payloadSize =
      piece (masterChunk k.sender c) (n + 1))
    (hrepeat : packet.seqNumber ≠ n)
    (hs : inboundData k.receiver k.src k.senderId packet clk d = .ok (d', down))
    (hopen : ∀ e, .completed e ∉ down) :
    ∃ index slot hash request entry chunk n,
      Holding k c d' index slot hash request entry chunk n := by
  have hadvance := advance_cases packet.seqNumber (Nat.le_of_lt h.bound)
  cases h.tracks.dataStep hvalid hs with
  | ignored => exact ⟨_, _, _, _, _, _, _, h⟩
  | dropped hname htracks hne =>
    rcases hadvance with hsame | ⟨hnext, heq⟩
    · exact ⟨_, _, _, _, _, _, _, h.track hname (hsame ▸ htracks)⟩
    · exact absurd (hnext.trans heq.symm) hne
  | saved hname htracks heq htarget hsave hpart =>
    rcases hadvance with hsame | ⟨hnext, heq'⟩
    · exact absurd (heq.trans hsame) hrepeat
    · obtain ⟨-, -, rfl, rfl, rfl, rfl⟩ := htarget.unique h.target
      exact ⟨_, _, _, _, _, _, _, h.save (hseq hnext) hsave hpart hname (heq' ▸ htracks)⟩
  | closed heq hdone hquiet hclosed =>
    exact absurd (List.mem_cons_of_mem _ (List.mem_cons_of_mem _ hdone)) (hopen _)

theorem copyInv_step {ev : StreamEvent} (h : CopyInv k c s log) (hok : NoRepeat k s log ev)
    (hs : (streamMachine k).step ev s = .ok (s', l)) : CopyInv k c s' (log ++ l) := by
  refine ⟨ackInv_step h.ack hok.1 hs, h.id, fun hopen => ?_⟩
  obtain ⟨index, slot, hash, request, entry, chunk, n, hholding⟩ := h.holding (completed_mono hopen)
  cases ev with
  | send clk =>
    cases hs
    exact ⟨_, _, _, _, _, _, _, hholding⟩
  | ack stale m clk =>
    simp only [streamMachine] at hs
    split at hs
    · cases hs
    · cases hs
      exact ⟨_, _, _, _, _, _, _, hholding⟩
  | data stale seq bytes clk =>
    obtain ⟨⟨hsent, -⟩, hrepeat⟩ := hok
    have hnumber := hsent.seqNumber h.ack.sender stale
    have hne := hrepeat stale seq bytes clk rfl n chunk
      (streamEntry_eq hholding.tracks hholding.target)
    obtain ⟨m, hm, rfl, stack, rfl⟩ := hsent.piece h.ack.sender
    have hlen := chunkData_length (c := c) k.sender stack m
    simp only [streamMachine] at hs
    split at hs
    · cases hs
    · rename_i d down hdata
      cases hs
      refine hholding.data h.ack.valid (fun hnext => ?_) (hnumber.symm ▸ hne) hdata fun e hmem => ?_
      · obtain rfl : m = n := by omega
        rw [receive_payloadSize stale hlen, receive_headerLength _ stale, receive_payload stale hlen]
        · exact chunkData_eq h.id hm stack
        · simp only [maxPayloadSize, Message.packetLength, headerLength] at hlen ⊢
          omega
      · exact hopen ⟨e, by rw [downloads_append, downloads_inr]; exact List.mem_append_right _ hmem⟩

/-- Until the chunk completes, the receiver holds the first bytes of the sender's chunk, as many as
its tracker's number says. -/
theorem copied_until_complete (h : (streamMachine k).Reach (OpenedInPlace k c) (NoRepeat k) s log)
    (hopen : ¬ Completed log) : Copied k c s := by
  have hinv : CopyInv k c s log :=
    h.invariant (fun _ hs => copyInv_opened hs) fun _ _ _ _ _ _ hI hok hs => copyInv_step hI hok hs
  obtain ⟨index, slot, hash, request, entry, chunk, n, hholding⟩ := hinv.holding hopen
  have hbound := hholding.bound
  simp only [maxPacketPerChunk] at hbound
  refine ⟨n, chunk, streamEntry_eq hholding.tracks hholding.target, ?_, ?_⟩
  · rw [hholding.count, Nat.min_eq_left]
    simp only [maxPayloadSize, btChunkSize]
    omega
  · rw [hholding.bytes, hholding.count]

theorem sampleSystem_inPlace : OpenedInPlace sampleLink 0 sampleSystem :=
  ⟨⟨Int.le_refl 0, by decide, by decide⟩, sampleSystem_upload, _, _, _, sampleSystem_download, rfl⟩

set_option maxRecDepth 20000 in
/-- The first packet of a stream is delivered. -/
theorem copied_until_complete_one : ∃ s : System,
    (streamEntry sampleLink s.receiver).map (fun r => (r.1, r.2.receivedByteNumber)) =
      some (1, 1484) ∧ Copied sampleLink 0 s := by
  have hstart : (streamMachine sampleLink).Reach (OpenedInPlace sampleLink 0) (NoRepeat sampleLink)
    sampleSystem [] := .start sampleSystem_inPlace
  have hsend := hstart.step (e := StreamEvent.send fun _ => passAt 0)
    ⟨trivial, fun _ _ _ _ he => by cases he⟩ rfl
  have hdata := hsend.step (e := StreamEvent.data (fun _ => 0) 1 (chunkData sampleEnv (fun _ => 0) 0 0)
    fun _ => 0) ⟨⟨⟨0, false, List.mem_singleton.mpr rfl⟩, fun ⟨_, _, h⟩ => List.not_mem_nil h⟩,
      fun _ _ _ _ he n chunk hentry => ?_⟩ rfl
  · refine ⟨_, ?_, copied_until_complete hdata fun ⟨e, hmem⟩ => ?_⟩
    · rfl
    · have hmem : .completed e ∈ [DownloadAction.sent (some sampleSrc) (.ack 1),
        .accepted 0 1 1 0 1484] := hmem
      simp at hmem
  · cases he
    have hnewest : some n = some 0 := (congrArg (Option.map Prod.fst) hentry).symm
    cases hnewest
    exact Nat.one_ne_zero

set_option maxRecDepth 20000 in
/-- The ACK of packet 1 is lost and the packet is sent again: its payload is appended twice. -/
theorem repeated_packet_appended : ∃ s log,
    (streamMachine sampleLink).Reach (OpenedInPlace sampleLink 0) (Delivered sampleLink) s log ∧
      ¬ Completed log ∧ ¬ Copied sampleLink 0 s := by
  have hstart : (streamMachine sampleLink).Reach (OpenedInPlace sampleLink 0) (Delivered sampleLink)
    sampleSystem [] := .start sampleSystem_inPlace
  have hsend := hstart.step (e := StreamEvent.send fun _ => passAt 0) trivial rfl
  have hdata := hsend.step (e := StreamEvent.data (fun _ => 0) 1 (chunkData sampleEnv (fun _ => 0) 0 0)
    fun _ => 0) ⟨⟨0, false, List.mem_singleton.mpr rfl⟩, fun ⟨_, _, h⟩ => List.not_mem_nil h⟩ rfl
  have hagain := hdata.step (e := StreamEvent.send fun _ => passAt 10000000) trivial rfl
  have htwice := hagain.step (e := StreamEvent.data (fun _ => 0) 1 (chunkData sampleEnv (fun _ => 0) 0 0)
    fun _ => 0) ⟨⟨0, false, List.Mem.head _⟩, ?_⟩ rfl
  · refine ⟨_, _, htwice, fun ⟨e, hmem⟩ => ?_, fun ⟨n, chunk, hentry, hcount, _⟩ => ?_⟩
    · have hmem : .completed e ∈ [DownloadAction.sent (some sampleSrc) (.ack 1),
        .accepted 0 1 1 0 1484, .sent (some sampleSrc) (.ack 1), .accepted 0 1 1 0 1484] := hmem
      simp at hmem
    · have hheld : some (n, chunk.receivedByteNumber) = some (1, 2968) :=
        (congrArg (Option.map fun r : Nat × Chunk => (r.1, r.2.receivedByteNumber)) hentry).symm
      simp only [Option.some.injEq, Prod.mk.injEq] at hheld
      rw [hheld.1, hheld.2] at hcount
      exact absurd hcount (by decide)
  · rintro ⟨i, e, hmem⟩
    have hmem : .handed i 1 e ∈ [DownloadAction.sent (some sampleSrc) (.ack 1),
      .accepted 0 1 1 0 1484] := hmem
    simp at hmem

end Bittorrent
