import Bittorrent.Stream.Copy

/-!
# What the receiver gathers

A stream takes a DATA packet with the number after the tracker's, and also one with the tracker's own
number, whose payload is then appended once more. `Gathering` counts both: the tracker's number `n` and
the repeats `r`. A packet of the sender's chunk does one of four things (`Gathered`), and it completes the
entry only as the last one of a stream without repeats: with one there is no room for the last packet but
one.

The bytes in the buffer are counted exactly, 1484 for each of the `n` packets and 1484 more for each of the
`r` repeats, so the room that is left decides each case. With `r = 0` the packets up to 354 fit and the last
one fills the entry; with `r > 0` some packet finds too little room, and there the code writes past the end
of the buffer, a fault. `Gathers.step` goes through the four cases with the tracker's answer, and
`saveChunk_full` says what is logged when the entry is full, whether it is verified or given up.
-/

namespace Bittorrent

variable {k : Link} {c p : Int} {d d' : Downloads} {index entry seq n r m : Nat} {slot slot' : DownloadSlot}
  {hash : Hash} {request : Request} {chunk chunk' : Chunk} {packet : Incoming} {src : Addr}
  {clk : Clock} {buf : Memory} {down : DownloadLog}

/-! ## `save_chunk` and what follows -/

theorem saveChunk_short (env : Env) (hrequest : d.currentRequest = some request) (hget : request.chunks[entry]? = some chunk)
    (hshort : chunk.receivedByteNumber ≠ btChunkSize) : saveChunk env entry d = .ok none := by
  unfold saveChunk
  simp only [hrequest, hget]
  exact if_neg fun hfull => hshort hfull.1

/-- What `save_chunk` says of a full entry. -/
def savedLog (env : Env) (entry : Nat) (hash : Hash) (bytes : List UInt8) : DownloadLog :=
  .completed entry :: if env.shahash bytes = hash then [.verified hash bytes] else []

theorem saveChunk_full (env : Env) (hrequest : d.currentRequest = some request) (hget : request.chunks[entry]? = some chunk)
    (hfull : chunk.receivedByteNumber = btChunkSize) (hstate : chunk.state ≠ .owned)
    (hdata : chunk.data = some buf) : ∃ d', saveChunk env entry d =
      .ok (some (d', savedLog env entry chunk.hash (readBytes buf 0 btChunkSize))) := by
  unfold saveChunk savedLog
  simp only [hrequest, hget]
  rw [if_pos ⟨hfull, hstate⟩]
  simp only [hdata]
  split_ifs
  · exact ⟨_, rfl⟩
  · exact ⟨_, rfl⟩

/-- What `assign` logs. -/
def Assigned : DownloadAction → Prop
  | .picked _ => True
  | .handed _ _ _ => True
  | .sent _ (.get _) => True
  | _ => False

theorem assign_assigned {picked : Option (Nat × Chunk)} (h : assign src p picked clk d = (d', down)) :
    ∀ act ∈ down, Assigned act := by
  unfold assign at h
  split at h
  · cases h
    exact fun act hmem => absurd hmem List.not_mem_nil
  · unfold openStream at h
    split at h
    · cases h
      intro act hmem
      rw [List.mem_singleton.mp hmem]
      trivial
    · cases h
      intro act hmem
      simp only [List.mem_cons, List.not_mem_nil, or_false] at hmem
      rcases hmem with rfl | rfl | rfl <;> trivial

/-- What is logged when an entry is full: the last save, what `save_chunk` makes of the sender's chunk, and
the next stream, if there is one. -/
def Closing (k : Link) (c : Int) (hash : Hash) (down : DownloadLog) : Prop :=
  ∃ index seq entry size next, down = .sent (some k.src) (.ack seq) ::
      .accepted index k.senderId seq entry size ::
        (savedLog k.receiver entry hash (masterChunk k.sender c) ++ next) ∧ ∀ act ∈ next, Assigned act

/-! ## What is held -/

/-- The stream is open. Its tracker holds the number `n`, and `r` payloads were appended once more. -/
structure Gathering (k : Link) (c : Int) (d : Downloads) (index : Nat) (slot : DownloadSlot) (hash : Hash)
    (request : Request) (entry : Nat) (chunk : Chunk) (n r : Nat) : Prop where
  tracks : Tracks d k.senderId index slot n
  target : Target d k.senderId index slot hash request entry chunk
  state : chunk.state = .receiving
  empty : chunk.data = none → chunk.receivedByteNumber = 0
  bound : n + r < maxPacketPerChunk
  count : chunk.receivedByteNumber = maxPayloadSize * (n + r)
  bytes : r = 0 → chunk.received = (masterChunk k.sender c).take (maxPayloadSize * n)

/-- A stream for an entry with the hash. -/
def Gathers (k : Link) (c : Int) (hash : Hash) (n r : Nat) (d : Downloads) : Prop :=
  ∃ index slot hash' request entry chunk,
    Gathering k c d index slot hash' request entry chunk n r ∧ chunk.hash = hash

/-- What packet `m + 1` does to a stream that holds `n` packets and `r` repeats. -/
inductive Gathered (k : Link) (c : Int) (hash : Hash) (m n r : Nat) : DownloadLog → Downloads → Prop
  | other {d' : Downloads} (hnext : m ≠ n) (hagain : m + 1 ≠ n) (hgathers : Gathers k c hash n r d') :
      Gathered k c hash m n r [.sent (some k.src) (.ack n)] d'
  | next {d' : Downloads} {index entry size : Nat} (hnext : m = n) (hgathers : Gathers k c hash (n + 1) r d') :
      Gathered k c hash m n r
        [.sent (some k.src) (.ack (n + 1)), .accepted index k.senderId (n + 1) entry size] d'
  /-- The tracker's own number: the payload is appended once more. -/
  | again {d' : Downloads} {index entry size : Nat} (hagain : m + 1 = n)
      (hgathers : Gathers k c hash n (r + 1) d') :
      Gathered k c hash m n r [.sent (some k.src) (.ack n), .accepted index k.senderId n entry size] d'
  /-- The entry is full, and the stream is closed, unless another one was opened. -/
  | full {d' : Downloads} {down : DownloadLog} (hnext : m = n) (hnone : r = 0)
      (hclosing : Closing k c hash down)
      (hclosed : getDownloadIndexById k.senderId d' = none ∨ ∃ j e, .handed j k.senderId e ∈ down) :
      Gathered k c hash m n r down d'

/-- A payload that is not empty is saved exactly if there is room for it. -/
theorem saveDataPacket_receiving (hstate : chunk.state = .receiving) (hsize : packet.payloadSize ≠ 0) :
    if chunk.receivedByteNumber + packet.payloadSize ≤ btChunkSize then
      ∃ chunk' buf, saveDataPacket packet chunk = .ok chunk' ∧ chunk'.data = some buf
    else saveDataPacket packet chunk = .error .overflow := by
  have hbuffer : chunk.buffer ≠ none := by
    rw [Chunk.buffer]
    split_ifs with hnone
    · exact Option.some_ne_none _
    · exact fun hdata => hnone ⟨by rw [hdata]; rfl, hstate⟩
  obtain ⟨buf, hbuf⟩ := Option.ne_none_iff_exists'.mp hbuffer
  rw [saveDataPacket_eq packet (by rw [hstate]; decide), hbuf, if_neg hsize]
  dsimp only
  split_ifs
  · exact ⟨_, _, rfl, rfl⟩
  · rfl

theorem Gathering.save {n' r' : Nat} (h : Gathering k c d index slot hash request entry chunk n r)
    (hsave : saveDataPacket packet chunk = .ok chunk') (hname : slot'.downloadChunk = slot.downloadChunk)
    (htracks : Tracks (d.write index slot') k.senderId index slot' n') (hbound : n' + r' < maxPacketPerChunk)
    (hcount : chunk'.receivedByteNumber = maxPayloadSize * (n' + r'))
    (hbytes : r' = 0 → chunk'.received = (masterChunk k.sender c).take (maxPayloadSize * n')) :
    Gathering k c ((d.write index slot').writeChunk entry chunk') index slot' hash
      { request with chunks := request.chunks.set entry chunk' } entry chunk' n' r' := by
  obtain ⟨-, -, hstate, -⟩ := saveDataPacket_ok hsave
  have hget : (request.chunks.set entry chunk')[entry]? = some chunk' :=
    Table.get_set_self (List.getElem?_eq_some_iff.mp h.target.get).1
  refine ⟨htracks.congr rfl, ⟨htracks.found, hname.trans h.target.named, ?_, ?_, hget⟩, hstate.trans h.state,
    (received_save h.state h.empty hsave).2, hbound, hcount, hbytes⟩
  · exact writeChunk_currentRequest h.target.current entry chunk'
  · exact (getChunkId_set h.target.get (saveDataPacket_line hsave)).trans h.target.id

/-! ## A packet of the sender's chunk -/

/-- What the receiver reads of packet `m + 1`. -/
structure PieceOf (k : Link) (c : Int) (m : Nat) (packet : Incoming) : Prop where
  lt : m < maxPacketPerChunk
  number : packet.seqNumber = m + 1
  bytes : readBytes packet.buf packet.headerLength packet.payloadSize = piece (masterChunk k.sender c) (m + 1)

theorem PieceOf.size (h : PieceOf k c m packet) :
    packet.payloadSize = min maxPayloadSize (btChunkSize - maxPayloadSize * m) ∧ packet.payloadSize ≠ 0 := by
  have hlen := congrArg List.length h.bytes
  have hlt := h.lt
  rw [readBytes_length, piece_length] at hlen
  refine ⟨hlen, ?_⟩
  simp only [maxPayloadSize, btChunkSize, maxPacketPerChunk] at *
  omega

theorem Gathering.advance_eq (h : Gathering k c d index slot hash request entry chunk n r) (m : Nat) :
    advance n (m + 1) = if m = n then n + 1 else n := by
  have hbound := h.bound
  have hle : n ≤ maxPacketPerChunk := by omega
  simp only [maxPacketPerChunk] at hbound
  split_ifs with hm
  · exact hm ▸ if_pos (Nat.mod_eq_of_lt (by omega))
  · rcases advance_cases (m + 1) hle with hsame | ⟨heq, -⟩
    · exact hsame
    · exact absurd (Nat.succ_injective heq) hm

theorem Gathering.other (h : Gathering k c d index slot hash request entry chunk n r)
    (hpiece : PieceOf k c m packet) (hnext : m ≠ n) (hagain : m + 1 ≠ n) (clk : Clock) :
    ∃ slot', inboundData k.receiver k.src k.senderId packet clk d =
        .ok (d.write index slot', [.sent (some k.src) (.ack n)]) ∧
      Gathering k c (d.write index slot') index slot' hash request entry chunk n r := by
  obtain ⟨slot', htrack, hname, htracks⟩ := h.tracks.track packet.seqNumber packet.dataLength (clk 0)
  have hsame : advance n packet.seqNumber = n := by rw [hpiece.number, h.advance_eq m, if_neg hnext]
  rw [hsame] at htrack htracks
  refine ⟨slot', ?_, htracks, ⟨htracks.found, hname.trans h.target.named, h.target.current, h.target.id,
    h.target.get⟩, h.state, h.empty, h.bound, h.count, h.bytes⟩
  rw [inboundData_eq h.target, htrack, hpiece.number]
  exact if_neg hagain

theorem Gathering.accept (h : Gathering k c d index slot hash request entry chunk n r)
    (hvalid : k.senderId ≠ idNull) (hpiece : PieceOf k c m packet) (hlast : m = n ∨ m + 1 = n) (clk : Clock) :
    if chunk.receivedByteNumber + packet.payloadSize ≤ btChunkSize then
      ∃ d' down, inboundData k.receiver k.src k.senderId packet clk d = .ok (d', down) ∧
        Gathered k c chunk.hash m n r down d'
    else inboundData k.receiver k.src k.senderId packet clk d = .error .overflow := by
  obtain ⟨hsize, hne⟩ := hpiece.size
  have hlt := hpiece.lt
  have hbound := h.bound
  have hbefore := h.count
  obtain ⟨slot', htrack, hname, htracks⟩ := h.tracks.track packet.seqNumber packet.dataLength (clk 0)
  have hadvance : advance n packet.seqNumber = m + 1 := by
    rw [hpiece.number, h.advance_eq m]
    split_ifs with hm <;> omega
  rw [hadvance] at htrack htracks
  rw [inboundData_eq h.target, htrack, hpiece.number]
  simp only [if_true, acceptData, hpiece.number]
  have hsaved := saveDataPacket_receiving h.state hne
  split_ifs at hsaved ⊢ with hroom
  · obtain ⟨chunk', buf, hsave, hdata⟩ := hsaved
    obtain ⟨-, hhash, hstate, hadd⟩ := saveDataPacket_ok hsave
    have hcount := hadd (by rw [h.state]; decide)
    have happend := (received_save h.state h.empty hsave).1
    have hcurrent : ((d.write index slot').writeChunk entry chunk').currentRequest = _ :=
      writeChunk_currentRequest h.target.current entry chunk'
    have hget : (request.chunks.set entry chunk')[entry]? = some chunk' :=
      Table.get_set_self (List.getElem?_eq_some_iff.mp h.target.get).1
    -- without repeats, what the next packet leaves is the front of the chunk
    have hfront : m = n → r = 0 →
        chunk'.received = (masterChunk k.sender c).take (maxPayloadSize * (n + 1)) := by
      rintro rfl hnone
      rw [happend, h.bytes hnone, hpiece.bytes, piece, Nat.add_sub_cancel, Nat.mul_comm m, ← List.take_add,
        ← Nat.mul_succ]
    simp only [hsave]
    by_cases hfull : chunk'.receivedByteNumber = btChunkSize
    · -- only the last packet fills the entry, and only if no other was repeated
      have hend : m = n ∧ r = 0 ∧ n + 1 = maxPacketPerChunk := by
        simp only [maxPayloadSize, btChunkSize, maxPacketPerChunk] at *
        omega
      obtain ⟨rfl, hnone, hend⟩ := hend
      have hwhole : readBytes buf 0 btChunkSize = masterChunk k.sender c := by
        have hfront := hfront rfl hnone
        rw [Chunk.received, hdata, hfull, hend] at hfront
        refine hfront.trans (List.take_of_length_le ?_)
        rw [masterChunk, readBytes_length]
        decide
      obtain ⟨d₁, hdone⟩ := saveChunk_full k.receiver hcurrent hget hfull
        (by rw [hstate, h.state]; decide) hdata
      have hclosed := htracks.abort hvalid (saveChunk_frame hdone).1
      rw [hhash, hwhole] at hdone
      simp only [hdone]
      rcases hassign : assign k.src k.senderId (pickANewChunk k.senderId (abortDownload k.senderId d₁)) clk
        (abortDownload k.senderId d₁) with ⟨d₂, next⟩
      refine ⟨d₂, _, rfl, .full rfl hnone ⟨index, m + 1, entry, packet.payloadSize, next, by simp,
        assign_assigned hassign⟩ ?_⟩
      rcases (assign_quiet hassign).2 with hsame | ⟨j, e, hmem⟩
      · refine Or.inl ?_
        rw [getDownloadIndexById, hsame]
        exact hclosed
      · exact Or.inr ⟨j, e, by simp [hmem]⟩
    · -- all other packets are of one size
      have hpart : chunk'.receivedByteNumber = maxPayloadSize * (n + r + 1) ∧ n + r + 1 < maxPacketPerChunk := by
        simp only [maxPayloadSize, btChunkSize, maxPacketPerChunk] at *
        omega
      simp only [saveChunk_short k.receiver hcurrent hget hfull]
      refine ⟨_, _, rfl, ?_⟩
      rcases hlast with rfl | hagain
      · refine .next rfl ⟨_, _, _, _, _, _, h.save hsave hname htracks ?_ ?_ (hfront rfl), hhash⟩
        · omega
        · rw [hpart.1, Nat.add_right_comm]
      · rw [hagain] at htracks ⊢
        refine .again hagain ⟨_, _, _, _, _, _, h.save hsave hname htracks hpart.2 hpart.1 ?_, hhash⟩
        exact fun hzero => absurd hzero (Nat.succ_ne_zero r)
  · simp only [hsaved]

theorem Gathers.step (h : Gathers k c hash n r d) (hvalid : k.senderId ≠ idNull) (hpiece : PieceOf k c m packet)
    (hs : inboundData k.receiver k.src k.senderId packet clk d = .ok (d', down)) :
    Gathered k c hash m n r down d' := by
  obtain ⟨index, slot, hash', request, entry, chunk, hgathering, rfl⟩ := h
  by_cases hlast : m = n ∨ m + 1 = n
  · have haccept := hgathering.accept hvalid hpiece hlast clk
    split_ifs at haccept
    · obtain ⟨d₁, down₁, hdata, hgathered⟩ := haccept
      rw [hs] at hdata
      cases hdata
      exact hgathered
    · rw [hs] at haccept
      cases haccept
  · obtain ⟨hnext, hagain⟩ := not_or.mp hlast
    obtain ⟨slot', hdata, hother⟩ := hgathering.other hpiece hnext hagain clk
    rw [hs] at hdata
    cases hdata
    exact .other hnext hagain ⟨_, _, _, _, _, _, hother, rfl⟩

/-- A stream without repeats has room for every packet but a repeat. -/
theorem Gathers.returns (h : Gathers k c hash n 0 d) (hvalid : k.senderId ≠ idNull)
    (hpiece : PieceOf k c m packet) (hagain : m + 1 ≠ n) (clk : Clock) :
    ∃ d' down, inboundData k.receiver k.src k.senderId packet clk d = .ok (d', down) := by
  obtain ⟨index, slot, hash', request, entry, chunk, hgathering, rfl⟩ := h
  by_cases hnext : m = n
  · have haccept := hgathering.accept hvalid hpiece (Or.inl hnext) clk
    have hroom : chunk.receivedByteNumber + packet.payloadSize ≤ btChunkSize := by
      have hbound := hgathering.bound
      rw [hgathering.count, hpiece.size.1]
      simp only [maxPayloadSize, btChunkSize, maxPacketPerChunk] at *
      omega
    rw [if_pos hroom] at haccept
    obtain ⟨d', down, hdata, -⟩ := haccept
    exact ⟨d', down, hdata⟩
  · obtain ⟨slot', hdata, -⟩ := hgathering.other hpiece hnext hagain clk
    exact ⟨_, _, hdata⟩

end Bittorrent
