import Bittorrent.Model.Download

/-!
# The moves of the downloading side

Every packet and timer step is a path of moves (`step_path`): a slot or a connection changes, an
entry is picked and handed to a slot, a payload is saved, an entry completes, a stream is dropped.
An invariant of the runs is settled move by move. Two propositions say what is known of a step:
`valid`, that the peer ids in it are not `ID_NULL`, and `linked`, that it takes none of the branches
that part the slots from the entries.

The division of the work. Each function of the handlers has an equation for what it leaves
(`trackDataPacket_cases`, `saveDataPacket_eq`, `acceptData_path`, `cleanDownloadTimeout_some`), a handler is
a path of moves put together from these, and `step_path` collects the handlers; here the source is unfolded,
and nowhere below. A user's GET is no move, since it replaces the request (`userGet_cases`). An invariant
then needs three facts, one for the start, one for a move and one for a new request, and `run_invariant` is
the induction that makes of them a fact about every run. `Slots` and `Entries` are the two shapes in which
most invariants come, a property of every slot and a property of every entry; their lemmas say which moves
touch such a property at all.
-/

namespace Bittorrent

variable {env : Env} {valid linked : Prop} {d d' : Downloads} {l : DownloadLog} {p : Int}
  {index entry : Nat} {slot slot' : DownloadSlot} {hash : Hash} {request : Request}
  {chunk chunk' : Chunk}

/-! ## Moves -/

/-- A slot after `abort_download`. -/
def DownloadSlot.abort (slot : DownloadSlot) : DownloadSlot :=
  { slot with downloadId := idNull, downloadChunk := none, lastAckedRecord := [] }

/-- An entry without its buffer and counters. -/
def Chunk.reset (chunk : Chunk) (state : ChunkState) : Chunk :=
  { chunk with state, data := none, receivedSeqNumber := 0, receivedByteNumber := 0 }

/-- The slot of a peer, and the entry the DATA case finds for it. -/
structure Target (d : Downloads) (p : Int) (index : Nat) (slot : DownloadSlot) (hash : Hash)
    (request : Request) (entry : Nat) (chunk : Chunk) : Prop where
  found : getDownloadIndexById p d = some (index, slot)
  named : slot.downloadChunk = some hash
  current : d.currentRequest = some request
  id : getChunkId hash request.chunks = entry
  get : request.chunks[entry]? = some chunk

/-- An unfinished entry of the current request. -/
structure Unfinished (d : Downloads) (request : Request) (entry : Nat) (chunk : Chunk) : Prop where
  current : d.currentRequest = some request
  get : request.chunks[entry]? = some chunk
  state : chunk.state = .notStarted

/-- No connection is to `ID_NULL`. -/
def PeersValid (connections : List Connection) : Prop := ∀ c ∈ connections, c.peerId ≠ idNull

/-- A save that fills the buffer of an entry that is not OWNED. -/
structure Filled (packet : Incoming) (chunk chunk' : Chunk) (data : Memory) : Prop where
  save : saveDataPacket packet chunk = .ok chunk'
  full : chunk'.receivedByteNumber = btChunkSize
  state : chunk'.state ≠ .owned
  data : chunk'.data = some data

/-- `write_file` of a verified chunk. -/
def storeChunk (env : Env) (filename : Option String) (chunkId : Int) (data : Memory)
    (files : String → Memory) : String → Memory :=
  match filename with
  | none => files
  | some name => Function.update files name
      (writeFile (files name) data btChunkSize (chunkOffset chunkId) (env.writes name (chunkOffset chunkId)))

/-- A verified chunk is written to the file and added to the has-chunk table. -/
def Downloads.store (env : Env) (filename : Option String) (chunk : Chunk) (data : Memory)
    (d : Downloads) : Downloads :=
  { d with
    files := storeChunk env filename chunk.id data d.files
    hasChunkTable := updateIhaveTable env chunk d.hasChunkTable }

inductive Move (env : Env) (valid linked : Prop) (d : Downloads) :
    DownloadLog → Downloads → Prop
  | sent (dst : Option Addr) (m : Message) : Move env valid linked d [.sent dst m] d
  | connected (connections : List Connection)
      (hpeers : valid → PeersValid d.connections → PeersValid connections) :
      Move env valid linked d [] { d with connections }
  | tracked {index : Nat} {slot : DownloadSlot} (records : List PacketRecord) (now : Time)
      (hslot : d.slots[index]? = some slot)
      (hactive : valid → PeersValid d.connections → slot.downloadId ≠ idNull) :
      Move env valid linked d []
        (d.write index { slot with lastAckedRecord := records, downloadLastTime := now })
  /-- An entry is picked, but no slot is free. -/
  | marked {request : Request} {entry : Nat} {chunk : Chunk} (hlink : ¬ linked)
      (hentry : Unfinished d request entry chunk) : Move env valid linked d [.picked entry]
        (d.writeChunk entry { chunk with state := .receiving })
  /-- An entry is picked and handed to a free slot. -/
  | opened {request : Request} {entry index : Nat} {chunk : Chunk} {slot : DownloadSlot} {p : Int}
      (now : Time) (hentry : Unfinished d request entry chunk)
      (hslot : getDownloadIndexById idNull d = some (index, slot))
      (hpeer : valid → PeersValid d.connections → p ≠ idNull) :
      Move env valid linked d [.picked entry, .handed index p entry]
        ((d.writeChunk entry { chunk with state := .receiving }).write index { slot with
          downloadId := p, downloadChunk := some chunk.hash, downloadLastTime := now })
  /-- A payload is saved. -/
  | accepted {p : Int} {index entry : Nat} {slot : DownloadSlot} {hash : Hash} {request : Request}
      {chunk chunk' : Chunk} (packet : Incoming)
      (htarget : Target d p index slot hash request entry chunk)
      (hsave : saveDataPacket packet chunk = .ok chunk') :
      Move env valid linked d [.accepted index p packet.seqNumber entry packet.payloadSize]
        (d.writeChunk entry chunk')
  /-- A payload completes an entry that fails verification. -/
  | failed {p : Int} {index entry : Nat} {slot : DownloadSlot} {hash : Hash} {request : Request}
      {chunk chunk' : Chunk} {data : Memory} (packet : Incoming)
      (htarget : Target d p index slot hash request entry chunk)
      (hfull : Filled packet chunk chunk' data)
      (hbad : env.shahash (readBytes data 0 btChunkSize) ≠ chunk'.hash)
      (hvalid : valid → p ≠ idNull) (hlink : linked → chunk.hash = hash) :
      Move env valid linked d
        [.accepted index p packet.seqNumber entry packet.payloadSize, .completed entry]
        ((d.writeChunk entry (chunk'.reset .notStarted)).write index slot.abort)
  /-- A payload completes an entry that is verified and written. -/
  | verified {p : Int} {index entry : Nat} {slot : DownloadSlot} {hash : Hash} {request : Request}
      {chunk chunk' : Chunk} {data : Memory} (packet : Incoming)
      (htarget : Target d p index slot hash request entry chunk)
      (hfull : Filled packet chunk chunk' data)
      (hgood : env.shahash (readBytes data 0 btChunkSize) = chunk'.hash)
      (hvalid : valid → p ≠ idNull) (hlink : linked → chunk.hash = hash) :
      Move env valid linked d
        [.accepted index p packet.seqNumber entry packet.payloadSize, .completed entry,
          .verified chunk'.hash (readBytes data 0 btChunkSize)]
        (((d.store env request.filename chunk' data).writeChunk entry (chunk'.reset .owned)).write
          index slot.abort)
  /-- A stream is dropped and its entry is not reset. -/
  | denied {p : Int} {index : Nat} {slot : DownloadSlot} (hlink : ¬ linked)
      (hslot : getDownloadIndexById p d = some (index, slot)) :
      Move env valid linked d [] (d.write index slot.abort)
  /-- A stream times out: the first slot of its peer is freed, and the entry with its hash reset. -/
  | crashed {i index : Nat} {idle slot : DownloadSlot} {hash : Hash} {request : Request}
      (hidle : d.slots[i]? = some idle) (hactive : idle.downloadId ≠ idNull)
      (hhash : idle.downloadChunk = some hash)
      (hslot : getDownloadIndexById idle.downloadId d = some (index, slot))
      (hrequest : d.currentRequest = some request) (hlink : linked → i = index) :
      Move env valid linked d [] (resetChunk hash (d.write index slot.abort))
  | finished (hall : allChunkFinished d) : Move env valid linked d [] { d with currentRequest := none }

/-! ## Rewriting -/

theorem getDownloadIndexById_get (h : getDownloadIndexById p d = some (index, slot)) :
    d.slots[index]? = some slot := Table.lookup_get h

theorem getDownloadIndexById_id (h : getDownloadIndexById p d = some (index, slot)) :
    slot.downloadId = p := Table.lookup_key h

theorem abortDownload_eq (h : getDownloadIndexById p d = some (index, slot)) :
    abortDownload p d = d.write index slot.abort := by
  rw [abortDownload, h]
  rfl

theorem abortDownload_none (h : getDownloadIndexById p d = none) : abortDownload p d = d := by
  rw [abortDownload, h]

theorem writeChunk_writeChunk :
    (d.writeChunk entry chunk).writeChunk entry chunk' = d.writeChunk entry chunk' := by
  simp [Downloads.writeChunk, Function.comp_def, List.set_set]

theorem store_writeChunk {filename : Option String} {stored : Chunk} {data : Memory} :
    ((d.writeChunk entry chunk).store env filename stored data).writeChunk entry chunk' =
      (d.store env filename stored data).writeChunk entry chunk' := by
  simp [Downloads.store, Downloads.writeChunk, Function.comp_def, List.set_set]

/-! ## Connections, tracker and slots -/

theorem markPeerState_writeChunk (state : ConnectionState) :
    markPeerState p state (d.writeChunk entry chunk) =
      (markPeerState p state d).writeChunk entry chunk := by
  unfold markPeerState
  simp only [Downloads.writeChunk]
  split <;> rfl

theorem PeersValid.set {connections : List Connection} {i : Nat} {c c' : Connection}
    (h : PeersValid connections) (hi : connections[i]? = some c) (hid : c'.peerId = c.peerId) :
    PeersValid (connections.set i c') := by
  intro c'' hmem
  rcases List.mem_or_eq_of_mem_set hmem with hmem | rfl
  · exact h c'' hmem
  · rw [hid]
    exact h c (List.mem_of_getElem? hi)

theorem markPeerState_path (state : ConnectionState) :
    Path (Move env valid linked) d [] (markPeerState p state d) := by
  unfold markPeerState
  split
  · rename_i i c h
    exact .single (.connected _ fun _ hpeers => hpeers.set (Table.lookup_get h) rfl)
  · exact .refl

theorem updateConnections_path (packet : Incoming) (hp : valid → p ≠ idNull) :
    Path (Move env valid linked) d [] (updateConnections p packet d) := by
  unfold updateConnections
  split
  · rename_i i c h
    exact .single (.connected _ fun _ hpeers => hpeers.set (Table.lookup_get h) rfl)
  · refine .single (.connected _ fun hv hpeers c' hmem => ?_)
    rcases List.mem_cons.mp hmem with rfl | hmem
    · exact hp hv
    · exact hpeers c' hmem

/-- The records of a stream after a packet. -/
def advanceRecords (seq length : Nat) (records : List PacketRecord) : List PacketRecord :=
  skipContinuous (addRecord seq length records)

theorem addRecord_ne_nil (seq length : Nat) (records : List PacketRecord) :
    addRecord seq length records ≠ [] := by
  unfold addRecord
  split
  · simp
  · split_ifs <;> simp
  · split_ifs <;> simp

theorem skipContinuous_ne_nil {records : List PacketRecord} (h : records ≠ []) :
    skipContinuous records ≠ [] := by
  fun_induction skipContinuous records with
  | case1 node next rest hnext ih => exact ih (List.cons_ne_nil _ _)
  | case2 node next rest hnext => exact List.cons_ne_nil _ _
  | case3 records hshape => exact h

theorem advanceRecords_ne_nil (seq length : Nat) (records : List PacketRecord) :
    advanceRecords seq length records ≠ [] :=
  skipContinuous_ne_nil (addRecord_ne_nil seq length records)

/-- The newest continuous number once a packet is tracked. -/
def advance (n seq : Nat) : Nat := if wrap32 (n + 1) = seq then seq else n

theorem advanceRecords_one {records : List PacketRecord} {root : PacketRecord}
    (h : records = [root]) (seq length : Nat) :
    ∃ record, advanceRecords seq length records = [record] ∧ record.seq = advance root.seq seq := by
  rw [h, advanceRecords, addRecord, advance]
  split_ifs with hnext
  · rw [skipContinuous, if_pos hnext]
    exact ⟨_, rfl, rfl⟩
  · exact ⟨_, rfl, rfl⟩

theorem trackDataPacket_eq (h : getDownloadIndexById p d = some (index, slot)) (seq length : Nat)
    (now : Time) : trackDataPacket p seq length now d =
      (((advanceRecords seq length slot.lastAckedRecord).headD ⟨seq, length⟩).seq,
        d.write index { slot with
          lastAckedRecord := advanceRecords seq length slot.lastAckedRecord
          downloadLastTime := now }) := by
  obtain ⟨root, rest, hrecords⟩ :=
    List.exists_cons_of_ne_nil (advanceRecords_ne_nil seq length slot.lastAckedRecord)
  have hskip : skipContinuous (addRecord seq length slot.lastAckedRecord) = root :: rest := hrecords
  simp only [trackDataPacket, h, hskip, hrecords, List.headD_cons]

theorem trackDataPacket_none (h : getDownloadIndexById p d = none) (seq length : Nat)
    (now : Time) : trackDataPacket p seq length now d = (seq, d) := by
  rw [trackDataPacket, h]

theorem trackDataPacket_cases (p : Int) (seq length : Nat) (now : Time) (d : Downloads) :
    (trackDataPacket p seq length now d).2 = d ∨
      ∃ index slot records, getDownloadIndexById p d = some (index, slot) ∧
        (trackDataPacket p seq length now d).2 =
          d.write index { slot with lastAckedRecord := records, downloadLastTime := now } := by
  cases h : getDownloadIndexById p d with
  | none => exact Or.inl (by rw [trackDataPacket_none h])
  | some r => exact Or.inr ⟨r.1, r.2, _, rfl, by rw [trackDataPacket_eq h]⟩

theorem trackDataPacket_path (p : Int) (seq length : Nat) (now : Time) (d : Downloads)
    (hpeer : valid → PeersValid d.connections → p ≠ idNull) :
    Path (Move env valid linked) d [] (trackDataPacket p seq length now d).2 := by
  rcases trackDataPacket_cases p seq length now d with h | ⟨index, slot, records, hslot, h⟩
  · rw [h]
    exact .refl
  · rw [h]
    exact .single (.tracked records now (getDownloadIndexById_get hslot)
      fun hv hpeers => getDownloadIndexById_id hslot ▸ hpeer hv hpeers)

/-! ## Picking an entry -/

theorem pickEntry_some {offered : Hash → Bool} (h : pickEntry offered d = some (entry, chunk)) :
    ∃ request, Unfinished d request entry chunk := by
  unfold pickEntry at h
  split at h
  · cases h
  · rename_i request hrequest
    have hstate := Table.lookup_key h
    rw [Bool.and_eq_true, decide_eq_true_eq] at hstate
    exact ⟨request, hrequest, Table.lookup_get h, hstate.1⟩

theorem Unfinished.connections (h : Unfinished d request entry chunk)
    (connections : List Connection) : Unfinished { d with connections } request entry chunk :=
  ⟨h.current, h.get, h.state⟩

theorem markPeerState_eq (p : Int) (state : ConnectionState) (d : Downloads) :
    ∃ connections, markPeerState p state d = { d with connections } ∧
      ∀ c ∈ d.connections, ∃ c' ∈ connections, c'.peerId = c.peerId := by
  unfold markPeerState
  split
  · rename_i i c hfound
    refine ⟨_, rfl, fun b hmem => ?_⟩
    obtain ⟨j, hj⟩ := List.mem_iff_getElem?.mp hmem
    by_cases hij : i = j
    · subst hij
      have hb : some c = some b := (Table.lookup_get hfound).symm.trans hj
      cases hb
      exact ⟨_, List.mem_of_getElem? (Table.get_set_self (Table.lookup_lt hfound)), rfl⟩
    · exact ⟨b, List.mem_of_getElem? ((Table.get_set_ne hij).trans hj), rfl⟩
  · exact ⟨d.connections, rfl, fun c hmem => ⟨c, hmem, rfl⟩⟩

theorem openStream_path {dst : Option Addr} {clk : Clock}
    (hentry : Unfinished d request entry chunk)
    (hpeer : valid → PeersValid d.connections → p ≠ idNull)
    (hlink : linked → getDownloadIndexById idNull d ≠ none)
    (h : openStream dst p entry chunk clk (d.writeChunk entry { chunk with state := .receiving }) =
      (d', l)) : Path (Move env valid linked) d l d' := by
  unfold openStream startDownload at h
  have hfree : getDownloadIndexById idNull (d.writeChunk entry { chunk with state := .receiving })
      = getDownloadIndexById idNull d := rfl
  rw [hfree] at h
  cases hl : getDownloadIndexById idNull d with
  | none =>
    simp only [hl] at h
    obtain ⟨rfl, rfl⟩ := Prod.mk.inj h
    exact .single (.marked (fun hlinked => hlink hlinked hl) hentry)
  | some r =>
    obtain ⟨index, slot⟩ := r
    simp only [hl] at h
    obtain ⟨rfl, rfl⟩ := Prod.mk.inj h
    have hopened : Path (Move env valid linked) d _ _ :=
      .single (.opened (clk 1) hentry hl hpeer)
    exact (hopened.trans (trackDataPacket_path _ _ _ _ _ hpeer)).tail (.sent dst _)

theorem assign_path {src : Addr} {picked : Option (Nat × Chunk)} {clk : Clock}
    (hentry : ∀ entry chunk, picked = some (entry, chunk) →
      ∃ request, Unfinished d request entry chunk)
    (hpeer : valid → p ≠ idNull)
    (hlink : linked → picked ≠ none → getDownloadIndexById idNull d ≠ none)
    (h : assign src p picked clk d = (d', l)) : Path (Move env valid linked) d l d' := by
  unfold assign at h
  split at h
  · obtain ⟨rfl, rfl⟩ := Prod.mk.inj h
    exact markPeerState_path _
  · rename_i entry chunk
    obtain ⟨request, hentry⟩ := hentry entry chunk rfl
    rw [markPeerState_writeChunk] at h
    have hmark : Path (Move env valid linked) d [] (markPeerState p .working d) :=
      markPeerState_path .working
    obtain ⟨connections, heq, -⟩ := markPeerState_eq p .working d
    rw [heq] at h hmark
    refine hmark.trans (openStream_path (hentry.connections connections) (fun hv _ => hpeer hv) ?_ h)
    exact fun hlinked => hlink hlinked (by simp)

/-! ## The DATA case -/

theorem Target.tracked (h : Target d p index slot hash request entry chunk)
    (records : List PacketRecord) (now : Time) :
    Target (d.write index { slot with lastAckedRecord := records, downloadLastTime := now }) p index
      { slot with lastAckedRecord := records, downloadLastTime := now } hash request entry chunk :=
  ⟨Table.lookup_set h.found (show slot.downloadId = p from getDownloadIndexById_id h.found),
    h.named, h.current, h.id, h.get⟩

/-- The buffer `save_data_packet` copies to: a RECEIVING entry without one gets one. -/
def Chunk.buffer (chunk : Chunk) : Option Memory :=
  if chunk.data.isNone ∧ chunk.state = .receiving then some fun _ => 0 else chunk.data

theorem saveDataPacket_eq (packet : Incoming) (h : chunk.state ≠ .owned) :
    saveDataPacket packet chunk =
      if packet.payloadSize = 0 then
        .ok { chunk with data := chunk.buffer, receivedSeqNumber := toInt32 packet.seqNumber }
      else
        match chunk.buffer with
        | none => .error .nullDeref
        | some buf =>
          if chunk.receivedByteNumber + packet.payloadSize ≤ btChunkSize then
            .ok { chunk with
              data := some (copyBytes buf chunk.receivedByteNumber
                (fun k => packet.buf (packet.headerLength + k)) packet.payloadSize)
              receivedSeqNumber := toInt32 packet.seqNumber
              receivedByteNumber := chunk.receivedByteNumber + packet.payloadSize }
          else .error .overflow := by
  unfold saveDataPacket Chunk.buffer
  rw [if_neg h]
  dsimp only
  generalize (if chunk.data.isNone = true ∧ chunk.state = ChunkState.receiving then
    some fun _ => 0 else chunk.data) = buffer
  cases buffer <;> rfl

/-- A save adds the payload to an entry that is not OWNED, and keeps id, hash and state. -/
theorem saveDataPacket_ok {packet : Incoming} (h : saveDataPacket packet chunk = .ok chunk') :
    chunk'.id = chunk.id ∧ chunk'.hash = chunk.hash ∧ chunk'.state = chunk.state ∧
      (chunk.state ≠ .owned →
        chunk'.receivedByteNumber = chunk.receivedByteNumber + packet.payloadSize) := by
  by_cases howned : chunk.state = .owned
  · rw [saveDataPacket, if_pos howned] at h
    cases h
    exact ⟨rfl, rfl, rfl, fun hne => absurd howned hne⟩
  · rw [saveDataPacket_eq packet howned] at h
    by_cases hsize : packet.payloadSize = 0
    · rw [if_pos hsize] at h
      cases h
      exact ⟨rfl, rfl, rfl, fun _ => by rw [hsize]; rfl⟩
    · rw [if_neg hsize] at h
      split at h
      · cases h
      · split_ifs at h
        cases h
        exact ⟨rfl, rfl, rfl, fun _ => rfl⟩

theorem saveChunk_some {r : Downloads × DownloadLog} (hrequest : d.currentRequest = some request)
    (hchunk : request.chunks[entry]? = some chunk) (h : saveChunk env entry d = .ok (some r)) :
    chunk.receivedByteNumber = btChunkSize ∧ chunk.state ≠ .owned ∧
      ∃ data, chunk.data = some data ∧
        ((env.shahash (readBytes data 0 btChunkSize) ≠ chunk.hash ∧
          r = (d.writeChunk entry (chunk.reset .notStarted), [.completed entry])) ∨
        (env.shahash (readBytes data 0 btChunkSize) = chunk.hash ∧
          r = ((d.store env request.filename chunk data).writeChunk entry (chunk.reset .owned),
            [.completed entry, .verified chunk.hash (readBytes data 0 btChunkSize)]))) := by
  unfold saveChunk at h
  simp only [hrequest, hchunk] at h
  split_ifs at h with hfull
  · split at h
    · cases h
    · rename_i data hdata
      refine ⟨hfull.1, hfull.2, data, hdata, ?_⟩
      split_ifs at h with hhash
      · cases h
        refine Or.inr ⟨hhash, ?_⟩
        simp only [Downloads.store, storeChunk, hrequest]
        cases request.filename <;> rfl
      · cases h
        exact Or.inl ⟨hhash, rfl⟩
  · cases h

theorem writeChunk_currentRequest (h : d.currentRequest = some request) (entry : Nat)
    (chunk : Chunk) :
    (d.writeChunk entry chunk).currentRequest =
      some { request with chunks := request.chunks.set entry chunk } := by
  rw [Downloads.writeChunk, h]
  rfl

theorem getDownloadIndexById_abort (h : getDownloadIndexById p d = some (index, slot)) :
    getDownloadIndexById idNull (d.write index slot.abort) ≠ none := by
  have hfree : slot.abort.downloadId = idNull := rfl
  obtain ⟨j, b, hfound, -⟩ := Table.lookup_exists (Table.get_set_self (Table.lookup_lt h)) hfree
  rw [getDownloadIndexById, Downloads.write, hfound]
  simp

theorem acceptData_path {src : Addr} {packet : Incoming} {clk : Clock}
    (htarget : Target d p index slot hash request entry chunk) (hvalid : valid → p ≠ idNull)
    (hlink : linked → chunk.receivedByteNumber + packet.payloadSize = btChunkSize →
      chunk.hash = hash)
    (h : acceptData env src index p packet entry chunk clk d = .ok (d', l)) :
    Path (Move env valid linked) d l d' := by
  unfold acceptData at h
  split at h
  · cases h
  · rename_i chunk' hsave
    simp only at h
    split at h
    · cases h
    · cases h
      exact .single (.accepted packet htarget hsave)
    · rename_i d₁ saved hsaved
      have hcurrent := writeChunk_currentRequest htarget.current entry chunk'
      have hget : ({ request with chunks := request.chunks.set entry chunk' } : Request).chunks[entry]?
          = some chunk' := Table.get_set_self (List.getElem?_eq_some_iff.mp htarget.get).1
      obtain ⟨hfull, hstate, data, hdata, hcases⟩ := saveChunk_some hcurrent hget hsaved
      have hfilled : Filled packet chunk chunk' data := ⟨hsave, hfull, hstate, hdata⟩
      obtain ⟨-, -, hsame, hadd⟩ := saveDataPacket_ok hsave
      have hlink' : linked → chunk.hash = hash := fun hl =>
        hlink hl ((hadd (hsame ▸ hstate)).symm.trans hfull)
      have hnext : ∀ d₂, getDownloadIndexById idNull d₂ ≠ none → Path (Move env valid linked) d₂
          (assign src p (pickANewChunk p d₂) clk d₂).2 (assign src p (pickANewChunk p d₂) clk d₂).1 :=
        fun d₂ hfree => assign_path (fun _ _ hpick => pickEntry_some hpick) hvalid
          (fun _ _ => hfree) rfl
      rcases hcases with ⟨hbad, hr⟩ | ⟨hgood, hr⟩
      · obtain ⟨rfl, rfl⟩ := Prod.mk.inj hr
        rw [writeChunk_writeChunk] at h
        have hfound : getDownloadIndexById p (d.writeChunk entry (chunk'.reset .notStarted)) =
          some (index, slot) := htarget.found
        have hmove := Path.single (Move.failed packet htarget hfilled hbad hvalid hlink')
        rw [abortDownload_eq hfound] at h
        cases h
        exact hmove.trans (hnext _ (getDownloadIndexById_abort hfound))
      · obtain ⟨rfl, rfl⟩ := Prod.mk.inj hr
        rw [store_writeChunk] at h
        have hfound : getDownloadIndexById p ((d.store env request.filename chunk' data).writeChunk
          entry (chunk'.reset .owned)) = some (index, slot) := htarget.found
        have hmove := Path.single (Move.verified packet htarget hfilled hgood hvalid hlink')
        rw [abortDownload_eq hfound] at h
        cases h
        exact hmove.trans (hnext _ (getDownloadIndexById_abort hfound))

theorem inboundData_eq {src : Addr} {packet : Incoming} {clk : Clock}
    (h : Target d p index slot hash request entry chunk) : inboundData env src p packet clk d =
      let tracked := trackDataPacket p packet.seqNumber packet.dataLength (clk 0) d
      if packet.seqNumber = tracked.1 then
        match acceptData env src index p packet entry chunk clk tracked.2 with
        | .error f => .error f
        | .ok (d', saved) => .ok (d', [.sent (some src) (.ack tracked.1)] ++ saved)
      else .ok (tracked.2, [.sent (some src) (.ack tracked.1)]) := by
  have hid := h.id
  unfold inboundData
  simp only [h.found, h.named, h.current, hid, Int.toNat_natCast, h.get]
  rw [if_neg (by omega)]
  generalize trackDataPacket p packet.seqNumber packet.dataLength (clk 0) d = tracked
  by_cases heq : packet.seqNumber = tracked.1
  · rw [if_pos heq]
    have hlt : ¬ packet.seqNumber < tracked.1 := by omega
    have hgt : ¬ packet.seqNumber > tracked.1 := by omega
    cases acceptData env src index p packet entry chunk clk tracked.2 with
    | error f => exact (if_neg hlt).trans (if_neg hgt)
    | ok r => exact (if_neg hlt).trans (if_neg hgt)
  · rw [if_neg heq]
    by_cases hlt : packet.seqNumber < tracked.1
    · rw [if_pos hlt]
    · rw [if_neg hlt, if_pos (by omega)]

theorem inboundData_target {src : Addr} {packet : Incoming} {clk : Clock}
    (h : inboundData env src p packet clk d = .ok (d', l)) : (d' = d ∧ l = []) ∨
      ∃ index slot hash request entry chunk, Target d p index slot hash request entry chunk := by
  unfold inboundData at h
  split at h
  · cases h
    exact Or.inl ⟨rfl, rfl⟩
  · rename_i index slot hfound
    split at h
    · rename_i hash request hnamed hcurrent
      simp only at h
      by_cases hneg : getChunkId hash request.chunks < 0
      · rw [if_pos hneg] at h
        cases h
        exact Or.inl ⟨rfl, rfl⟩
      · rw [if_neg hneg] at h
        split at h
        · cases h
          exact Or.inl ⟨rfl, rfl⟩
        · rename_i chunk hget
          exact Or.inr ⟨index, slot, hash, request, _, chunk, hfound, hnamed, hcurrent,
            (Int.toNat_of_nonneg (by omega)).symm, hget⟩
    · cases h

/-- The id found for the slot's hash is not a position in the request's table. -/
theorem inboundData_skip {src : Addr} {packet : Incoming} {clk : Clock}
    (hfound : getDownloadIndexById p d = some (index, slot)) (hnamed : slot.downloadChunk = some hash)
    (hcurrent : d.currentRequest = some request)
    (hno : ∀ entry chunk, ¬ Target d p index slot hash request entry chunk) :
    inboundData env src p packet clk d = .ok (d, []) := by
  unfold inboundData
  simp only [hfound, hnamed, hcurrent]
  by_cases hneg : getChunkId hash request.chunks < 0
  · rw [if_pos hneg]
  · rw [if_neg hneg]
    split
    · rfl
    · rename_i chunk hget
      exact absurd ⟨hfound, hnamed, hcurrent, (Int.toNat_of_nonneg (by omega)).symm, hget⟩
        (hno _ chunk)

theorem Target.unique {index' entry' : Nat} {slot' : DownloadSlot} {hash' : Hash}
    {request' : Request} (h : Target d p index slot hash request entry chunk)
    (h' : Target d p index' slot' hash' request' entry' chunk') :
    index' = index ∧ slot' = slot ∧ hash' = hash ∧ request' = request ∧ entry' = entry ∧
      chunk' = chunk := by
  have hfound := h.found.symm.trans h'.found
  cases hfound
  have hnamed := h.named.symm.trans h'.named
  cases hnamed
  have hcurrent := h.current.symm.trans h'.current
  cases hcurrent
  have hid : entry' = entry := Int.ofNat.inj (h'.id.symm.trans h.id)
  subst hid
  have hget := h.get.symm.trans h'.get
  cases hget
  exact ⟨rfl, rfl, rfl, rfl, rfl, rfl⟩

theorem Target.track (h : Target d p index slot hash request entry chunk) (seq length : Nat)
    (now : Time) : ∃ slot', Target (trackDataPacket p seq length now d).2 p index slot' hash request
      entry chunk := by
  rw [trackDataPacket_eq h.found]
  exact ⟨_, h.tracked _ now⟩

theorem inboundData_path {src : Addr} {packet : Incoming} {clk : Clock} (hvalid : valid → p ≠ idNull)
    (hlink : linked → ∀ index slot hash request entry chunk,
      Target d p index slot hash request entry chunk →
        chunk.receivedByteNumber + packet.payloadSize = btChunkSize → chunk.hash = hash)
    (h : inboundData env src p packet clk d = .ok (d', l)) : Path (Move env valid linked) d l d' := by
  rcases inboundData_target h with ⟨rfl, rfl⟩ | ⟨index, slot, hash, request, entry, chunk, htarget⟩
  · exact .refl
  · obtain ⟨slot', htarget'⟩ := htarget.track packet.seqNumber packet.dataLength (clk 0)
    have htracked : Path (Move env valid linked) d _ _ :=
      (trackDataPacket_path p packet.seqNumber packet.dataLength (clk 0) d fun hv _ => hvalid hv).tail
        (.sent (some src) (.ack (trackDataPacket p packet.seqNumber packet.dataLength (clk 0) d).1))
    rw [inboundData_eq htarget] at h
    simp only at h
    split_ifs at h
    · split at h
      · cases h
      · rename_i d₁ saved haccept
        cases h
        exact htracked.trans (acceptData_path htarget' hvalid
          (fun hl => hlink hl _ _ _ _ _ _ htarget) haccept)
    · cases h
      exact htracked

/-! ## Crashes -/

theorem cleanDownloadTimeout_some {now : Time} {rto : Int} {r : Int × Hash × Downloads}
    (h : cleanDownloadTimeout now rto d = .ok (some r)) : ∃ (i : Nat) (idle : DownloadSlot)
      (hash : Hash), d.slots[i]? = some idle ∧
        d.slots.find? (DownloadSlot.timedOut now rto) = some idle ∧
        (∀ j s, j < i → d.slots[j]? = some s → s.timedOut now rto = false) ∧
        idle.downloadId ≠ idNull ∧ idle.downloadChunk = some hash ∧
        r = (idle.downloadId, hash, abortDownload idle.downloadId d) := by
  unfold cleanDownloadTimeout at h
  split at h
  · cases h
  · rename_i idle hfind
    split at h
    · cases h
    · rename_i hash hhash
      cases h
      obtain ⟨htimed, i, hi, hget, hfirst⟩ := List.find?_eq_some_iff_getElem.mp hfind
      rw [DownloadSlot.timedOut, decide_eq_true_eq] at htimed
      refine ⟨i, idle, hash, List.getElem?_eq_some_iff.mpr ⟨hi, hget⟩, hfind, ?_, htimed.1, hhash, rfl⟩
      intro j s hj hs
      obtain ⟨hlt, rfl⟩ := List.getElem?_eq_some_iff.mp hs
      simpa using hfirst j hj

theorem cleanDownloadTimeout_eq_abort {now : Time} {rto : Int} {i : Nat}
    (hdistinct : Table.Distinct (·.downloadId) idNull d.slots) (hi : d.slots[i]? = some slot)
    (hfind : d.slots.find? (DownloadSlot.timedOut now rto) = some slot)
    (hhash : slot.downloadChunk = some hash) :
    cleanDownloadTimeout now rto d =
      .ok (some (slot.downloadId, hash, d.write i slot.abort)) := by
  have htimed := List.find?_some hfind
  rw [DownloadSlot.timedOut, decide_eq_true_eq] at htimed
  have hfound : getDownloadIndexById slot.downloadId d = some (i, slot) :=
    hdistinct.lookup_eq hi htimed.1
  unfold cleanDownloadTimeout
  simp only [hfind, hhash]
  rw [abortDownload_eq hfound]

/-- The stream that times out is the first slot of its peer, and its entry can be reset. -/
def TimeoutLinked (now : Time) (rto : Int) (d : Downloads) : Prop :=
  ∀ idle, d.slots.find? (DownloadSlot.timedOut now rto) = some idle →
    0 < idle.downloadId ∧ d.connections ≠ [] ∧ d.currentRequest ≠ none ∧
      ∀ index slot, getDownloadIndexById idle.downloadId d = some (index, slot) →
        slot.timedOut now rto = true

theorem resetChunk_slots : (resetChunk hash d).slots = d.slots := by
  unfold resetChunk
  split
  · rfl
  · split <;> rfl

theorem resetChunk_connections : (resetChunk hash d).connections = d.connections := by
  unfold resetChunk
  split
  · rfl
  · split <;> rfl

theorem resetChunk_write :
    resetChunk hash (d.write index slot) = (resetChunk hash d).write index slot := by
  have hcurrent : (d.write index slot).currentRequest = d.currentRequest := rfl
  rw [resetChunk, resetChunk, hcurrent]
  cases d.currentRequest with
  | none => rfl
  | some request =>
    simp only
    cases Table.lookup (·.hash) hash request.chunks with
    | none => rfl
    | some found => rfl

theorem downloadPeerCrash_path {now : Time} {rto : Int} {crashed : Bool}
    (hlink : linked → TimeoutLinked now rto d)
    (h : downloadPeerCrash now rto d = .ok (crashed, d')) :
    Path (Move env valid linked) d [] d' ∧
      (crashed = true → getDownloadIndexById idNull d' ≠ none) := by
  unfold downloadPeerCrash at h
  split at h
  · cases h
  · cases h
    exact ⟨.refl, fun h => absurd h (by decide)⟩
  · rename_i p hash d₁ hclean
    obtain ⟨i, idle, hash', hget, hfind, hfirst, hactive, hhash, hr⟩ := cleanDownloadTimeout_some hclean
    cases hr
    obtain ⟨index, slot, hfound, hle⟩ : ∃ index slot,
        getDownloadIndexById idle.downloadId d = some (index, slot) ∧ index ≤ i :=
      Table.lookup_exists hget rfl
    rw [abortDownload_eq hfound] at h
    split_ifs at h with hearly
    · cases h
      refine ⟨.single (.denied (fun hl => ?_) hfound), fun h => absurd h (by decide)⟩
      obtain ⟨hpos, hconn, hreq, -⟩ := hlink hl idle hfind
      rcases hearly with hneg | hnil | hnone
      · omega
      · exact hconn (List.isEmpty_iff.mp hnil)
      · exact hreq (Option.isNone_iff_eq_none.mp hnone)
    · cases h
      simp only [not_or] at hearly
      obtain ⟨request, hrequest⟩ := Option.ne_none_iff_exists'.mp
        (fun hn => hearly.2.2 (Option.isNone_iff_eq_none.mpr hn))
      have hrequest : d.currentRequest = some request := hrequest
      have hmove : (linked → i = index) → Move env valid linked _ [] _ :=
        .crashed hget hactive hhash hfound hrequest
      have hcrash := Path.single (hmove fun hl => ?_)
      · refine ⟨hcrash.tail (.connected _ fun _ hpeers c hmem => hpeers c ?_), fun _ => ?_⟩
        · exact List.mem_of_mem_eraseP hmem
        · have hfree := getDownloadIndexById_abort hfound
          rw [getDownloadIndexById] at hfree ⊢
          simp only [resetChunk_slots]
          exact hfree
      · -- an earlier slot of the peer would not have timed out
        obtain ⟨-, -, -, htimed⟩ := hlink hl idle hfind
        have htimed := htimed index slot hfound
        by_contra hne
        have := hfirst index slot (by omega) (getDownloadIndexById_get hfound)
        rw [this] at htimed
        cases htimed

theorem pickAChunkAfterCrash_some (h : pickAChunkAfterCrash d = some (p, entry, chunk)) :
    (∃ c ∈ d.connections, c.peerId = p) ∧ ∃ request, Unfinished d request entry chunk := by
  obtain ⟨c, hmem, hc⟩ := List.exists_of_findSome?_eq_some h
  split_ifs at hc
  obtain ⟨⟨e, c'⟩, hpick, he⟩ := Option.map_eq_some_iff.mp hc
  cases he
  exact ⟨⟨c, hmem, rfl⟩, pickEntry_some hpick⟩

theorem downloadPeerCrashWrapper_path {clk : Clock} {rto : Int}
    (hlink : linked → TimeoutLinked (clk 0) rto d)
    (h : downloadPeerCrashWrapper env clk rto d = .ok (d', l)) :
    Path (Move env valid linked) d l d' := by
  unfold downloadPeerCrashWrapper at h
  split at h
  · cases h
  · rename_i d₁ hcrash
    cases h
    exact (downloadPeerCrash_path hlink hcrash).1
  · rename_i d₁ hcrash
    obtain ⟨hpath, hfree⟩ : Path (Move env valid linked) d [] d₁ ∧
        (true = true → getDownloadIndexById idNull d₁ ≠ none) := downloadPeerCrash_path hlink hcrash
    split at h
    · cases h
      exact hpath
    · rename_i p entry chunk hpick
      obtain ⟨⟨c, hmem, hc⟩, request, hentry⟩ := pickAChunkAfterCrash_some hpick
      rw [markPeerState_writeChunk] at h
      have hmark : Path (Move env valid linked) d₁ [] (markPeerState p .working d₁) :=
        markPeerState_path .working
      obtain ⟨connections, heq, hsame⟩ := markPeerState_eq p .working d₁
      rw [heq] at h hmark
      refine hpath.trans (hmark.trans (openStream_path (hentry.connections connections)
        (fun _ hpeers => ?_) (fun _ => hfree rfl) (Except.ok.inj h)))
      obtain ⟨c', hmem', hc'⟩ := hsame c hmem
      rw [← hc, ← hc']
      exact hpeers c' hmem'

/-! ## A step -/

theorem inboundWhohas_path {src : Addr} {packet : Incoming}
    (h : inboundWhohas src packet d = .ok (d', l)) : Path (Move env valid linked) d l d' := by
  unfold inboundWhohas at h
  simp only at h
  split_ifs at h
  · cases h
    exact .refl
  · cases h
    exact .single (.sent _ _)

theorem updateConnections_currentRequest (packet : Incoming) :
    (updateConnections p packet d).currentRequest = d.currentRequest ∧
      (updateConnections p packet d).slots = d.slots := by
  unfold updateConnections
  split <;> exact ⟨rfl, rfl⟩

theorem inboundIhave_path {src : Addr} {packet : Incoming} {clk : Clock} (hvalid : valid → p ≠ idNull)
    (hlink : linked → pickAChunk packet d ≠ none → getDownloadIndexById idNull d ≠ none)
    (h : inboundIhave src p packet clk d = .ok (d', l)) : Path (Move env valid linked) d l d' := by
  unfold inboundIhave at h
  split at h
  · cases h
  · have hupdate : Path (Move env valid linked) d [] (updateConnections p packet d) :=
      updateConnections_path packet hvalid
    obtain ⟨hcurrent, hslots⟩ := updateConnections_currentRequest (p := p) (d := d) packet
    simp only at h
    split_ifs at h
    · refine hupdate.trans (assign_path (fun _ _ hpick => pickEntry_some hpick) hvalid
        (fun hl hpick => ?_) (Except.ok.inj h))
      rw [getDownloadIndexById, hslots]
      refine hlink hl ?_
      unfold pickAChunk pickEntry at hpick ⊢
      rwa [hcurrent] at hpick
    · cases h
      exact hupdate

/-- The peer ids of a step are not `ID_NULL`. -/
def ValidPeer : DownloadEvent → Prop
  | .ihave _ p _ _ => p ≠ idNull
  | .data _ p _ _ => p ≠ idNull
  | _ => True

/-- The peer ids of a run are not `ID_NULL`. -/
def ValidPeers (_ : Downloads) (_ : DownloadLog) : DownloadEvent → Prop := ValidPeer

theorem ValidPeers.run (env : Env) (max : Nat) (has : List Chunk) (files : String → Memory)
    (events : List DownloadEvent) (hevents : ∀ ev ∈ events, ValidPeer ev)
    (hrun : (downloadMachine env).run events (initDownloads max has files) = .ok (d, l)) :
    (downloadMachine env).Reach (· = initDownloads max has files) ValidPeers d l := by
  have hstart : (downloadMachine env).Reach (· = initDownloads max has files) ValidPeers
    (initDownloads max has files) [] := .start rfl
  exact hstart.run (C := fun _ ev => ValidPeer ev) (fun _ _ _ hev => hev) events
    (.of_forall _ _ fun ev hev _ => hevents ev hev) hrun

/-- The step takes none of the branches that part slots from entries: a picked entry finds a free
slot, a payload completes the entry its slot is for, the sender of a DENIED has no download, and a
stream that times out is the first of its peer and can be reset. -/
def Linked (d : Downloads) : DownloadEvent → Prop
  | .ihave _ _ packet _ => pickAChunk packet d ≠ none → getDownloadIndexById idNull d ≠ none
  | .data _ p packet _ => ∀ index slot hash request entry chunk,
      Target d p index slot hash request entry chunk →
        chunk.receivedByteNumber + packet.payloadSize = btChunkSize → chunk.hash = hash
  | .denied p => getDownloadIndexById p d = none
  | .crash clk rto => TimeoutLinked (clk 0) rto d
  | _ => True

/-- Every step but a user's GET is a path of moves. -/
theorem step_path {ev : DownloadEvent} (hvalid : valid → ValidPeer ev) (hlink : linked → Linked d ev)
    (huser : ∀ outf parsed, ev ≠ .userGet outf parsed)
    (h : (downloadMachine env).step ev d = .ok (d', l)) : Path (Move env valid linked) d l d' := by
  cases ev with
  | whohas src packet => exact inboundWhohas_path h
  | ihave src p packet clk => exact inboundIhave_path hvalid hlink h
  | data src p packet clk => exact inboundData_path hvalid hlink h
  | denied p =>
    obtain ⟨hd, rfl⟩ := Prod.mk.inj (Except.ok.inj h)
    rw [inboundDenied] at hd
    cases hl : getDownloadIndexById p d with
    | none =>
      rw [← hd, abortDownload_none hl]
      exact .refl
    | some r =>
      rw [← hd, abortDownload_eq hl]
      refine .single (.denied (fun hlinked => ?_) hl)
      have hnone : getDownloadIndexById p d = none := hlink hlinked
      rw [hnone] at hl
      cases hl
  | crash clk rto => exact downloadPeerCrashWrapper_path hlink h
  | finish =>
    obtain ⟨hd, rfl⟩ := Prod.mk.inj (Except.ok.inj h)
    rw [← hd, finishRequest]
    split_ifs with hall
    · exact .single (.finished hall)
    · exact .refl
  | userGet outf parsed => exact absurd rfl (huser outf parsed)

/-- A user's GET line: `outf` is touched, and without a current request a new one begins. -/
theorem userGet_cases {outf : String} {parsed : Option (List (Int × Hash))}
    (h : userGet env outf parsed d = .ok (d', l)) :
    let files := Function.update d.files outf (createFile (d.files outf))
    (d' = { d with files } ∧ l = []) ∨
      ∃ lines sent, d.currentRequest = none ∧ parsed = some lines ∧
        whohasFlooding env ⟨some outf, lines.map requestEntry⟩ = .ok sent ∧
        d' = { d with files, currentRequest := some ⟨some outf, lines.map requestEntry⟩ } ∧
        l = sent := by
  intro files
  unfold userGet at h
  dsimp only at h
  split at h
  · rename_i lines hnone
    split at h
    · cases h
    · rename_i sent hsent
      cases h
      exact Or.inr ⟨lines, _, hnone, rfl, hsent, rfl, rfl⟩
  · cases h
    exact Or.inl ⟨rfl, rfl⟩

theorem peersValid_move (h : PeersValid d.connections) (hm : Move env True linked d l d') :
    PeersValid d'.connections := by
  cases hm with
  | connected connections hpeers => exact hpeers trivial h
  | crashed _ _ _ _ _ _ =>
    rw [resetChunk_connections]
    exact h
  | _ => exact h

/-- The induction over a run: a property is kept by every move and by every user's GET. -/
theorem run_invariant (valid linked : Prop) {I : Downloads → DownloadLog → Prop}
    {Init : Downloads → Prop} {Ok : Downloads → DownloadLog → DownloadEvent → Prop} {log : DownloadLog}
    (h0 : ∀ d, Init d → I d [])
    (hvalid : ∀ d log ev, Ok d log ev → valid → ValidPeer ev)
    (hlink : ∀ d log ev, I d log → Ok d log ev → linked → Linked d ev)
    (hmove : ∀ d log l d', I d log → Move env valid linked d l d' → I d' (log ++ l))
    (huser : ∀ d log outf parsed l d', I d log → Ok d log (.userGet outf parsed) →
      userGet env outf parsed d = .ok (d', l) → I d' (log ++ l))
    (h : (downloadMachine env).Reach Init Ok d log) : I d log := by
  refine h.invariant h0 fun d log ev d' l _ hI hok hs => ?_
  by_cases hev : ∃ outf parsed, ev = .userGet outf parsed
  · obtain ⟨outf, parsed, rfl⟩ := hev
    exact huser d log outf parsed l d' hI hok hs
  · exact (step_path (hvalid d log ev hok) (hlink d log ev hI hok)
      (fun outf parsed he => hev ⟨outf, parsed, he⟩) hs).invariant hmove hI

/-! ## The lines of the request -/

/-- The id and the hash of an entry: its line of the chunk file. -/
def Chunk.line (chunk : Chunk) : Int × Hash := (chunk.id, chunk.hash)

/-- The lines the current request was built from. -/
def Downloads.lines (d : Downloads) : Option (List (Int × Hash)) :=
  d.currentRequest.map fun request => request.chunks.map Chunk.line

theorem line_requestEntry (lines : List (Int × Hash)) :
    (lines.map requestEntry).map Chunk.line = lines := by
  simp [Chunk.line, requestEntry, Function.comp_def]

/-- `get_chunk_id` on the lines. -/
def lineId (hash : Hash) (lines : List (Int × Hash)) : Int :=
  match Table.lookup (·.2) hash lines with
  | none => -1
  | some (_, line) => line.1

theorem getChunkId_eq (hash : Hash) (chunks : List Chunk) :
    getChunkId hash chunks = lineId hash (chunks.map Chunk.line) := by
  rw [getChunkId, lineId, Table.lookup_map]
  change _ = match (Table.lookup (·.hash) hash chunks).map fun r => (r.1, r.2.line) with
    | none => -1
    | some (_, line) => line.1
  cases Table.lookup (·.hash) hash chunks with
  | none => rfl
  | some r => rfl

theorem lines_writeChunk (hrequest : d.currentRequest = some request)
    (hget : request.chunks[entry]? = some chunk) (hline : chunk'.line = chunk.line) :
    (d.writeChunk entry chunk').lines = d.lines := by
  rw [Downloads.lines, Downloads.lines, writeChunk_currentRequest hrequest, hrequest]
  simp only [Option.map_some, List.map_set, hline, Option.some.injEq]
  exact Table.set_self (by rw [List.getElem?_map, hget]; rfl)

theorem lines_resetChunk (hash : Hash) (d : Downloads) : (resetChunk hash d).lines = d.lines := by
  unfold resetChunk
  split
  · rfl
  · rename_i request hrequest
    split
    · rfl
    · rename_i entry chunk hfound
      exact lines_writeChunk hrequest (Table.lookup_get hfound) rfl

theorem saveDataPacket_line {packet : Incoming} (h : saveDataPacket packet chunk = .ok chunk') :
    chunk'.line = chunk.line := by
  obtain ⟨hid, hhash, -, -⟩ := saveDataPacket_ok h
  rw [Chunk.line, Chunk.line, hid, hhash]

theorem Filled.line {packet : Incoming} {data : Memory} (h : Filled packet chunk chunk' data)
    (state : ChunkState) : (chunk'.reset state).line = chunk.line :=
  show chunk'.line = chunk.line from saveDataPacket_line h.save

theorem Move.lines (h : Move env valid linked d l d') :
    d'.lines = d.lines ∨ d'.currentRequest = none := by
  cases h with
  | sent dst m => exact Or.inl rfl
  | connected connections _ => exact Or.inl rfl
  | tracked records now hslot _ => exact Or.inl rfl
  | marked hlink hentry => exact Or.inl (lines_writeChunk hentry.current hentry.get rfl)
  | opened now hentry hslot hpeer => exact Or.inl (lines_writeChunk hentry.current hentry.get rfl)
  | accepted packet htarget hsave =>
    exact Or.inl (lines_writeChunk htarget.current htarget.get (saveDataPacket_line hsave))
  | failed packet htarget hfull _ _ _ =>
    exact Or.inl (lines_writeChunk htarget.current htarget.get (hfull.line _))
  | @verified p index entry slot hash request chunk chunk' data packet htarget hfull _ _ _ =>
    exact Or.inl (lines_writeChunk (d := d.store env request.filename chunk' data) htarget.current
      htarget.get (hfull.line _))
  | denied hlink hslot => exact Or.inl rfl
  | crashed _ _ _ _ _ _ => exact Or.inl (lines_resetChunk _ _)
  | finished _ => exact Or.inr rfl

/-! ## Properties of the slots -/

/-- Every slot has a property. -/
def Slots (P : DownloadSlot → Prop) (d : Downloads) : Prop :=
  ∀ (i : Nat) (slot : DownloadSlot), d.slots[i]? = some slot → P slot

variable {P : DownloadSlot → Prop}

theorem Slots.congr (h : Slots P d) (hslots : d'.slots = d.slots) : Slots P d' := by
  intro i s hs
  exact h i s (hslots ▸ hs)

theorem Slots.write (h : Slots P d) (hi : d.slots[index]? = some slot) (hslot : P slot') :
    Slots P (d.write index slot') := by
  intro i s hs
  rcases Table.get_set_cases (List.getElem?_eq_some_iff.mp hi).1 hs with ⟨-, rfl⟩ | ⟨-, hs⟩
  · exact hslot
  · exact h i s hs

theorem Slots.move (h : Slots P d) (hm : Move env valid linked d l d')
    (htracked : ∀ slot records now, (valid → PeersValid d.connections → slot.downloadId ≠ idNull) →
      P slot → P { slot with lastAckedRecord := records, downloadLastTime := now })
    (hopened : ∀ slot p hash now, (valid → PeersValid d.connections → p ≠ idNull) → P slot →
      P { slot with downloadId := p, downloadChunk := some hash, downloadLastTime := now })
    (habort : ∀ slot : DownloadSlot, P slot.abort) : Slots P d' := by
  cases hm with
  | sent dst m => exact h
  | connected connections _ => exact h
  | tracked records now hslot hactive =>
    exact h.write hslot (htracked _ records now hactive (h _ _ hslot))
  | marked _ _ => exact h
  | opened now hentry hslot hpeer =>
    have hget := getDownloadIndexById_get hslot
    exact Slots.write (h.congr rfl) hget (hopened _ _ _ now hpeer (h _ _ hget))
  | accepted _ _ _ => exact h
  | failed _ htarget _ _ _ _ =>
    exact Slots.write (h.congr rfl) (getDownloadIndexById_get htarget.found) (habort _)
  | verified _ htarget _ _ _ _ =>
    exact Slots.write (h.congr rfl) (getDownloadIndexById_get htarget.found) (habort _)
  | denied _ hslot => exact h.write (getDownloadIndexById_get hslot) (habort _)
  | crashed _ _ _ hslot _ _ =>
    exact (h.write (getDownloadIndexById_get hslot) (habort _)).congr resetChunk_slots
  | finished _ => exact h

/-! ## Properties of the entries -/

/-- Every entry of the current request has a property. -/
def Entries (E : Nat → Chunk → Prop) (d : Downloads) : Prop :=
  ∀ request entry chunk, d.currentRequest = some request → request.chunks[entry]? = some chunk →
    E entry chunk

variable {E E' : Nat → Chunk → Prop}

theorem Entries.mono (h : Entries E d) (himp : ∀ e c, E e c → E' e c) : Entries E' d :=
  fun request e c hrequest hget => himp e c (h request e c hrequest hget)

theorem Entries.congr (h : Entries E d) (hrequest : d'.currentRequest = d.currentRequest) :
    Entries E d' := fun request e c hreq hget => h request e c (hrequest ▸ hreq) hget

theorem Entries.none (h : d.currentRequest = none) : Entries E d := by
  intro request e c hrequest
  rw [h] at hrequest
  cases hrequest

theorem Entries.requested {filename : Option String} {lines : List (Int × Hash)}
    (hrequest : d.currentRequest = some ⟨filename, lines.map requestEntry⟩)
    (h : ∀ e line, lines[e]? = some line → E e (requestEntry line)) : Entries E d := by
  intro request e c hr hc
  rw [hrequest] at hr
  cases hr
  rw [List.getElem?_map] at hc
  obtain ⟨line, hline, rfl⟩ := Option.map_eq_some_iff.mp hc
  exact h e line hline

theorem Entries.writeChunk (h : Entries E d) (hrequest : d.currentRequest = some request)
    (hget : request.chunks[entry]? = some chunk) (hother : ∀ e c, e ≠ entry → E e c → E' e c)
    (hnew : E' entry chunk') : Entries E' (d.writeChunk entry chunk') := by
  intro request' e c hrequest' hc
  rw [writeChunk_currentRequest hrequest] at hrequest'
  cases hrequest'
  rcases Table.get_set_cases (List.getElem?_eq_some_iff.mp hget).1 hc with ⟨rfl, rfl⟩ | ⟨hne, hc⟩
  · exact hnew
  · exact hother e c hne (h request e c hrequest hc)

theorem Entries.resetChunk (h : Entries E d) (hsame : ∀ e c, E e c → E' e c)
    (hreset : ∀ e c, E e c → E' e (c.reset .notStarted)) : Entries E' (resetChunk hash d) := by
  unfold Bittorrent.resetChunk
  split
  · exact h.mono hsame
  · rename_i request hrequest
    split
    · exact h.mono hsame
    · rename_i entry chunk hfound
      have hget := Table.lookup_get hfound
      exact h.writeChunk hrequest hget (fun e c _ => hsame e c)
        (hreset entry chunk (h request entry chunk hrequest hget))

end Bittorrent
